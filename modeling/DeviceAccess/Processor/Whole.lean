import DeviceAccess.Processor.Votes
import DeviceAccess.Processor.WalkDir

/-!
# A directory mount is seen whole or reported

A name that a walk does not see could be the alias that denies a granted device. So a directory
mount without an error was seen whole (`SeenWhole`): every listing under it succeeded, there were at
most `maxMountEntries` names, and every name that is not a directory was identified, as a candidate
or as a skip. Otherwise the mount leaves an error, and a container with an error is granted no
device.
-/

namespace Sda
namespace Processor

open Lexpath Policy Docker

/-- A directory on disk. -/
structure DirTree where
  tree : FileTree
  wellFormed : tree.WellFormed
  isDir : tree.isDir = true

variable {σ ν : Type}

/-- The same `/dev` with directories to walk. -/
def DevFs.onDisk (dev : DevFs σ ν) (disk : Path → Except Errno DirTree) : DevFs σ ν :=
  { dev with walk := fun root s => (rootVisits root ((disk root).map (·.tree)), s) }

/-! ## What is seen -/

/-- The names below a directory with what stands there, in the order of the walk. -/
def DirTree.below (tree : DirTree) : List (List Path × FileTree) := tree.tree.order.tail

/-- The names below a directory that are not directories. -/
def DirTree.leaves (tree : DirTree) : List (List Path × FileTree) :=
  tree.below.filter fun item => !item.2.isDir

/-- The alias of a walked path. -/
def aliasOf (source base path : Path) : Path :=
  source ++ if base.isPrefixOf path then path.drop base.length else path

/-- The names are evaluated one after the other. -/
def evaluateAll (dev : DevFs σ ν) (judge : Judge) : List Path → σ → List Evaluated
  | [], _ => []
  | aliasPath :: rest, s =>
    (evaluateCandidate dev aliasPath judge s).1 ::
      evaluateAll dev judge rest (evaluateCandidate dev aliasPath judge s).2

/-- The directory at `base`, mounted from `source` and walked from the state `s`, is seen whole. -/
structure SeenWhole (dev : DevFs σ ν) (source base : Path) (judge : Judge) (tree : DirTree)
    (s : σ) : Prop where
  /-- Every listing succeeds. -/
  listed : ∀ names sub, tree.tree.At names sub → sub.listingErrors (pathBelow base names) = []
  few : tree.below.length ≤ maxMountEntries
  /-- Every name that is not a directory is identified. -/
  identified : ∀ found ∈ evaluateAll dev judge (tree.leaves.map fun item => aliasOf source base
    (pathBelow base item.1)) s, found.err = none

/-! ## One visit -/

/-- What is made of an evaluated name. -/
def MountResult.addFound (result : MountResult) (found : Evaluated) : MountResult :=
  match found.err, found.skip, found.candidate.kind with
  | some error, _, _ => result.addError error
  | none, some _, _ => result.addSkip
  | none, none, .device _ => result.addCandidate found.candidate
  | none, none, _ => result.addSkip

theorem MountResult.addFound_errs {result : MountResult} {found : Evaluated}
    (h : (result.addFound found).errs = []) : result.errs = [] ∧ found.err = none := by
  unfold MountResult.addFound at h
  split at h
  next => simp [addError] at h
  all_goals exact ⟨h, ‹_›⟩

/-- An identified name is a candidate or a skip. -/
theorem MountResult.addFound_count {result : MountResult} {found : Evaluated}
    (h : found.err = none) :
    (result.addFound found).candidates.length + (result.addFound found).skipped =
      result.candidates.length + result.skipped + 1 := by
  unfold MountResult.addFound
  rw [h]
  split
  next herr => cases herr
  all_goals
    simp only [addSkip, addCandidate, List.length_append, List.length_singleton]
    omega

section Visits

variable {dev : DevFs σ ν} {source base path : Path} {judge : Judge}
  {state : MountWalkState} {s : σ}

theorem visitEntry_root {isDir : Bool} (hroot : path = base) :
    visitEntry dev source base judge state ⟨path, isDir, none⟩ s = ((state, true), s) := by
  unfold visitEntry
  dsimp only
  rw [if_pos hroot]

/-- The visit of a name below the root. -/
theorem visitEntry_name (hne : path ≠ base) (isDir : Bool) :
    visitEntry dev source base judge state ⟨path, isDir, none⟩ s =
      if maxMountEntries < state.entries + 1 then
        ((⟨state.result.addError (.mountTooLarge source), state.entries + 1⟩, false), s)
      else if isDir then ((⟨state.result, state.entries + 1⟩, true), s)
      else ((⟨state.result.addFound (evaluateCandidate dev (aliasOf source base path) judge s).1,
        state.entries + 1⟩, true),
        (evaluateCandidate dev (aliasOf source base path) judge s).2) := by
  unfold visitEntry aliasOf
  dsimp only
  rw [if_neg hne]
  split
  · rfl
  · split
    · rfl
    · rcases evaluateCandidate dev _ judge s with ⟨⟨⟨_, _, _, kind, _⟩, skip, err⟩, s'⟩
      cases err with
      | some error => rfl
      | none =>
        cases skip with
        | some reason => rfl
        | none => cases kind <;> rfl

theorem visitEntry_errs (visit : Visit) (h : state.result.errs ≠ []) :
    (visitEntry dev source base judge state visit s).1.1.result.errs ≠ [] := by
  obtain ⟨path, isDir, _ | error⟩ := visit
  · by_cases hroot : path = base
    · rw [visitEntry_root hroot]
      exact h
    · rw [visitEntry_name hroot]
      split
      · exact MountResult.addError_ne_nil _ _
      · split
        · exact h
        · exact fun hnil => h (MountResult.addFound_errs hnil).1
  · exact MountResult.addError_ne_nil _ _

theorem visitAll_errs (visits : List Visit) (h : state.result.errs ≠ []) :
    (visitAll dev source base judge visits state s).1.errs ≠ [] := by
  induction visits generalizing state s with
  | nil => exact h
  | cons visit visits ih =>
    have hstep := @visitEntry_errs _ _ dev source base judge state s visit h
    rw [visitAll]
    revert hstep
    rcases visitEntry dev source base judge state visit s with ⟨⟨state', _ | _⟩, s'⟩
    · exact fun hstep => hstep
    · exact fun hstep => ih hstep

/-- A failed listing is visited and leaves an error. -/
theorem visitAll_listing {errors : List SysError} {visits : List Visit}
    (h : (visitAll dev source base judge
      ((errors.map fun error => ⟨path, true, some error⟩) ++ visits) state s).1.errs = []) :
    errors = [] := by
  cases errors with
  | nil => rfl
  | cons error errors =>
    rw [List.map_cons, List.cons_append, visitAll, visitEntry] at h
    dsimp only at h
    exact absurd h (visitAll_errs _ (MountResult.addError_ne_nil _ _))

/-- The visits of names below the root that leave no error. -/
theorem visitAll_below {items : List (List Path × FileTree)}
    (hbelow : ∀ item ∈ items, pathBelow base item.1 ≠ base) :
    ∀ {state : MountWalkState} {s : σ}, state.entries ≤ maxMountEntries →
      (visitAll dev source base judge (items.flatMap (visitsAt base)) state s).1.errs = [] →
      (∀ item ∈ items, item.2.listingErrors (pathBelow base item.1) = []) ∧
      state.entries + items.length ≤ maxMountEntries ∧
      (∀ found ∈ evaluateAll dev judge ((items.filter fun item => !item.2.isDir).map fun item =>
        aliasOf source base (pathBelow base item.1)) s, found.err = none) ∧
      (visitAll dev source base judge (items.flatMap (visitsAt base)) state s).1.candidates.length +
          (visitAll dev source base judge (items.flatMap (visitsAt base)) state s).1.skipped =
        state.result.candidates.length + state.result.skipped +
          (items.filter fun item => !item.2.isDir).length := by
  induction items with
  | nil =>
    intro state s hstart _
    rw [List.flatMap_nil, List.filter_nil, List.map_nil, List.length_nil, visitAll, evaluateAll]
    exact ⟨fun _ h => absurd h List.not_mem_nil, hstart, fun _ h => absurd h List.not_mem_nil, rfl⟩
  | cons item items ih =>
    intro state s hstart h
    have hrest := fun {state s} =>
      @ih (fun item hi => hbelow item (List.mem_cons_of_mem _ hi)) state s
    rw [List.flatMap_cons, visitsAt, List.cons_append, visitAll,
      visitEntry_name (hbelow item List.mem_cons_self)] at h ⊢
    by_cases hmany : maxMountEntries < state.entries + 1
    · rw [if_pos hmany] at h
      dsimp only at h
      exact absurd h (MountResult.addError_ne_nil _ _)
    rw [if_neg hmany] at h ⊢
    by_cases hdir : item.2.isDir = true
    · rw [if_pos hdir] at h ⊢
      dsimp only at h ⊢
      have hlisted := visitAll_listing h
      rw [hlisted, List.map_nil, List.nil_append] at h ⊢
      obtain ⟨hlistings, hfew, hfound, hcount⟩ := hrest (Nat.not_lt.mp hmany) h
      dsimp only at hfew
      have hskip : (item :: items).filter (fun item => !item.2.isDir) = items.filter fun item =>
          !item.2.isDir :=
        List.filter_cons_of_neg (by rw [hdir]; decide)
      rw [hskip]
      refine ⟨fun other ho => ?_, by rw [List.length_cons]; omega, hfound, hcount⟩
      rcases List.mem_cons.mp ho with rfl | ho
      · exact hlisted
      · exact hlistings other ho
    · rw [if_neg hdir] at h ⊢
      dsimp only at h ⊢
      have hlisted := visitAll_listing h
      rw [hlisted, List.map_nil, List.nil_append] at h ⊢
      obtain ⟨hlistings, hfew, hfound, hcount⟩ := hrest (Nat.not_lt.mp hmany) h
      dsimp only at hfew
      have hleaf : (item :: items).filter (fun item => !item.2.isDir) =
          item :: items.filter fun item => !item.2.isDir :=
        List.filter_cons_of_pos (by simpa using hdir)
      have herr :=
        (MountResult.addFound_errs (Classical.not_not.mp fun hne => visitAll_errs _ hne h)).2
      rw [hleaf]
      refine ⟨fun other ho => ?_, by rw [List.length_cons]; omega, fun found hf => ?_, ?_⟩
      · rcases List.mem_cons.mp ho with rfl | ho
        · exact hlisted
        · exact hlistings other ho
      · rcases List.mem_cons.mp hf with rfl | hf
        · exact herr
        · exact hfound found hf
      · rw [hcount, MountResult.addFound_count herr, List.length_cons]
        omega

end Visits

/-! ## The mount -/

section Mount

variable {dev : DevFs σ ν} {disk : Path → Except Errno DirTree} {source base : Path} {judge : Judge}

/-- `visit_entry` as the visitor of a walk. -/
def mountVisitor (dev : DevFs σ ν) (source base : Path) (judge : Judge) (visit : Visit)
    (t : MountWalkState × σ) :
    (MountWalkState × σ) × Bool :=
  let ((state, goesOn), s) := visitEntry dev source base judge t.1 visit t.2
  ((state, s), goesOn)

theorem visitAll_eq_inTurn (visits : List Visit) (state : MountWalkState) (s : σ) :
    visitAll dev source base judge visits state s =
      ((inTurn (visits.map (mountVisitor dev source base judge)) (state, s)).1.1.result,
        (inTurn (visits.map (mountVisitor dev source base judge)) (state, s)).1.2) := by
  induction visits generalizing state s with
  | nil => rfl
  | cons visit visits ih =>
    rw [visitAll, List.map_cons, inTurn, mountVisitor]
    rcases visitEntry dev source base judge state visit s with ⟨⟨state', _ | _⟩, s'⟩
    · rfl
    · exact ih state' s'

/-- `walk_mount` is `walk_dir` with `visit_entry`. -/
theorem walkMount_eq_walkDir (dir : Path) (result : MountResult) (s : σ) :
    let base := join [dev.root, relToDev dir]
    let after := walkDir (mountVisitor (dev.onDisk disk) source base judge) base
      ((disk base).map (·.tree))
      (⟨result, 0⟩, s)
    walkMount (dev.onDisk disk) source dir judge result s = (after.1.result, after.2) := by
  intro base after
  have hwalk : after = (inTurn ((rootVisits base ((disk base).map (·.tree))).map
    (mountVisitor (dev.onDisk disk) source base judge)) (⟨result, 0⟩, s)).1 := walkDir_eq _ _ _
  rw [hwalk]
  exact visitAll_eq_inTurn (rootVisits base ((disk base).map (·.tree))) ⟨result, 0⟩ s

/-- `mountPath` resolves to the directory `dir`. -/
def ResolvesToDir (dev : DevFs σ ν) (mountPath : Path) (judge : Judge) (s : σ) (dir : Path)
    (s₁ : σ) : Prop :=
  ∃ found, evaluateCandidate dev mountPath judge s = (found, s₁) ∧ found.err = none ∧
    found.skip = none ∧
    found.candidate.kind = .dir ∧ found.candidate.resolved = dir

theorem collectMountRules_dir {mountPath dir : Path} {s s₁ : σ}
    (h : ResolvesToDir dev mountPath judge s dir s₁) :
    collectMountRules dev mountPath judge s = walkMount dev mountPath dir judge
    MountResult.default s₁ := by
  obtain ⟨found, heval, herr, hskip, hkind, rfl⟩ := h
  unfold collectMountRules
  simp only [heval, herr, hskip, hkind]

/-- The root comes first, and everything else is below it. -/
theorem DirTree.order_eq (tree : DirTree) : tree.tree.order = ([], tree.tree) :: tree.below := by
  obtain ⟨tree, hwf, hdir⟩ := tree
  cases tree with
  | leaf => cases hdir
  | unlisted errno => rfl
  | dir entries failure =>
    rw [DirTree.below, order_dir]
    rfl

theorem DirTree.below_ne_base (tree : DirTree) (base : Path) :
    ∀ item ∈ tree.below, pathBelow base item.1 ≠ base := by
  intro item hitem heq
  have hnodup := order_paths_nodup tree.wellFormed base
  rw [tree.order_eq, List.map_cons, List.nodup_cons] at hnodup
  exact hnodup.1 (List.mem_map.mpr ⟨item, hitem, heq⟩)

/-- A walk without an error saw the whole directory. -/
theorem walkMount_whole {dir : Path} {s : σ}
    (h : (walkMount (dev.onDisk disk) source dir judge MountResult.default s).1.errs = []) :
    ∃ tree, disk (join [dev.root, relToDev dir]) = .ok tree ∧
      SeenWhole (dev.onDisk disk) source (join [dev.root, relToDev dir]) judge tree s ∧
      (walkMount (dev.onDisk disk) source dir judge MountResult.default s).1.candidates.length +
        (walkMount (dev.onDisk disk) source dir judge MountResult.default s).1.skipped =
        tree.leaves.length := by
  have hwalk : walkMount (dev.onDisk disk) source dir judge MountResult.default s =
    visitAll (dev.onDisk disk) source (join [dev.root, relToDev dir]) judge
      (rootVisits (join [dev.root, relToDev dir])
        ((disk (join [dev.root, relToDev dir])).map (·.tree)))
      ⟨MountResult.default, 0⟩ s := rfl
  rw [hwalk] at h ⊢
  generalize join [dev.root, relToDev dir] = base at h ⊢
  cases hdisk : disk base with
  | error errno =>
    rw [hdisk] at h
    exact absurd h (MountResult.addError_ne_nil _ _)
  | ok tree =>
    refine ⟨tree, rfl, ?_⟩
    rw [hdisk] at h
    have hvisits : rootVisits base ((Except.ok tree : Except Errno DirTree).map (·.tree)) =
        ⟨base, tree.tree.isDir, none⟩ ::
          (((tree.tree.listingErrors base).map fun error => ⟨base, true, some error⟩) ++
            tree.below.flatMap (visitsAt base)) := by
      show treeVisits base tree.tree = _
      rw [treeVisits, tree.order_eq]
      rfl
    rw [hvisits, visitAll, visitEntry_root rfl] at h ⊢
    dsimp only at h ⊢
    have hroot := visitAll_listing h
    rw [hroot, List.map_nil, List.nil_append] at h ⊢
    obtain ⟨hlisted, hfew, hfound, hcount⟩ :=
      visitAll_below (tree.below_ne_base base) (Nat.zero_le _) h
    refine ⟨⟨fun names sub hat => ?_, by simpa using hfew, hfound⟩, hcount.trans (Nat.zero_add _)⟩
    rcases List.mem_cons.mp (tree.order_eq ▸ mem_order.mpr hat) with heq | hbelow
    · cases heq
      exact hroot
    · exact hlisted _ hbelow

end Mount

/-! ## The container -/

section Container

variable {dev : DevFs σ ν} {judge : Judge} {s s' : σ} {mount : MountPoint}
  {mounts : List MountPoint}

/-- The mounts with the states they are collected from. -/
def mountStarts (dev : DevFs σ ν) (judge : Judge) : List MountPoint → σ → List (MountPoint × σ)
  | [], _ => []
  | mount :: mounts, s =>
    (mount, s) :: mountStarts dev judge mounts (collectMountRules dev mount.source judge s).2

theorem mountResults_of_start (h : (mount, s') ∈ mountStarts dev judge mounts s) :
    (collectMountRules dev mount.source judge s').1 ∈ mountResults dev judge mounts s := by
  induction mounts generalizing s with
  | nil => cases h
  | cons first mounts ih =>
    rcases List.mem_cons.mp h with heq | h
    · cases heq
      exact List.mem_cons_self
    · exact List.mem_cons_of_mem _ (ih h)

/-- A mount with an error leaves the container without a device. -/
theorem computeDesired_of_mount_errs {openDev : Action σ SysError (DevFs σ ν)}
    {info : ContainerInspect} {policy : Global} {container : Container} {s₀ : σ}
    (hopen : openDev s₀ = (.ok dev, s))
    (hparse : Container.parse (info.labels.getD fun _ => none) = .ok container)
    (hmount : (mount, s') ∈ mountStarts dev ⟨policy, container⟩
      (info.mounts.filter isDeviceMount) s)
    (herrs : (collectMountRules dev mount.source ⟨policy, container⟩ s').1.errs ≠ []) :
    (computeDesired openDev info policy s₀).1.rules = [] := by
  refine List.eq_nil_iff_forall_not_mem.mpr fun rule hrule => ?_
  obtain ⟨container', dev', s₁, hparse', hopen', hnone, -⟩ := computeDesired_granted hrule
  rw [hparse] at hparse'
  cases hparse'
  rw [hopen] at hopen'
  cases hopen'
  have hall := @collectFrom_errs _ _ dev ⟨policy, container⟩ s (info.mounts.filter isDeviceMount)
    ContainerRules.default Aggregation.default
  have hall : (collectContainerRules dev info.mounts ⟨policy, container⟩ s).1.deviceErrs =
    (mountResults dev ⟨policy, container⟩ (info.mounts.filter isDeviceMount) s).flatMap (·.errs) :=
      hall
  rw [hnone] at hall
  exact herrs (List.flatMap_eq_nil_iff.mp hall.symm _ (mountResults_of_start hmount))

end Container

/-- **A directory mount is seen whole or reported.** `walk_dir` makes its visits in turn until the
visitor ends the walk: the root, then every listed name once, in lexical order and each directory
before its contents, and once more with the error for each listing that failed.
`collect_mount_rules` walks so with `visit_entry`; without an error it saw the directory whole, and
what is not a directory in it became a candidate or a skip. A mount that is not seen whole leaves
its container without a device. -/
theorem mount_seen_whole_or_reported (dev : DevFs σ ν) (disk : Path → Except Errno DirTree) :
    (∀ (tree : DirTree) (root : Path), SeenInOrder root tree.tree (treeVisits root tree.tree) ∧
      ∀ (τ : Type) (visit : Visit → τ → τ × Bool) (t : τ), walkDir visit root (.ok tree.tree) t =
        (inTurn ((treeVisits root tree.tree).map visit) t).1) ∧
    (∀ mountPath judge s dir s₁, ResolvesToDir (dev.onDisk disk) mountPath judge s dir s₁ →
      let base := join [dev.root, relToDev dir]
      let after := walkDir (mountVisitor (dev.onDisk disk) mountPath base judge) base
        ((disk base).map (·.tree)) (⟨MountResult.default, 0⟩, s₁)
      collectMountRules (dev.onDisk disk) mountPath judge s = (after.1.result, after.2) ∧
      (after.1.result.errs = [] → ∃ tree, disk base = .ok tree ∧
        SeenWhole (dev.onDisk disk) mountPath base judge tree s₁ ∧
        after.1.result.candidates.length + after.1.result.skipped = tree.leaves.length)) ∧
    ∀ (openDev : Action σ SysError (DevFs σ ν)) (info : ContainerInspect) (policy : Global)
      (container : Container) (s₀ s : σ), openDev s₀ = (.ok (dev.onDisk disk), s) →
      Container.parse (info.labels.getD fun _ => none) = .ok container →
      ∀ mount s' dir s₁,
        (mount, s') ∈ mountStarts (dev.onDisk disk) ⟨policy, container⟩
          (info.mounts.filter isDeviceMount) s →
        ResolvesToDir (dev.onDisk disk) mount.source ⟨policy, container⟩ s' dir s₁ →
        (¬ ∃ tree, disk (join [dev.root, relToDev dir]) = .ok tree ∧
          SeenWhole (dev.onDisk disk) mount.source
          (join [dev.root, relToDev dir]) ⟨policy, container⟩ tree s₁) →
        (collectMountRules (dev.onDisk disk) mount.source ⟨policy, container⟩ s').1.errs ≠ [] ∧
          (computeDesired openDev info policy s₀).1.rules = [] := by
  refine ⟨fun tree root => ⟨treeVisits_inOrder tree.wellFormed root, fun τ visit t =>
    walkDir_eq ..⟩, ?_, ?_⟩
  · intro mountPath judge s dir s₁ hdir base after
    have hwalk : walkMount (dev.onDisk disk) mountPath dir judge MountResult.default s₁ =
      (after.1.result, after.2) := walkMount_eq_walkDir dir MountResult.default s₁
    refine ⟨(collectMountRules_dir hdir).trans hwalk, fun herrs => ?_⟩
    have hwhole := @walkMount_whole _ _ dev disk mountPath judge dir s₁ (by rw [hwalk]; exact herrs)
    rwa [hwalk] at hwhole
  · intro openDev info policy container s₀ s hopen hparse mount s' dir s₁ hstart hdir hnot
    have herrs : (collectMountRules (dev.onDisk disk) mount.source ⟨policy, container⟩ s').1.errs ≠
        [] := by
      intro herrs
      rw [collectMountRules_dir hdir] at herrs
      obtain ⟨tree, hdisk, hwhole, -⟩ := walkMount_whole herrs
      exact hnot ⟨tree, hdisk, hwhole⟩
    exact ⟨herrs, computeDesired_of_mount_errs hopen hparse hstart herrs⟩

end Processor
end Sda
