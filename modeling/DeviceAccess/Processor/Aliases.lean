import DeviceAccess.Processor.Tree

/-!
# Which names of a device are judged

For a tree as `/dev`, `evaluate_candidate` gives a candidate for a device exactly for the names that
`open_candidate` can follow (`Tree.Followed`), and a denied name that is listed and followed keeps
the device from being granted. A name that is not followed is skipped as if it left `/dev`: an
absolute link into `/dev` that is reached through a relative one, or one whose target leads
elsewhere after cleaning. In a tree without such links every name that resolves is followed
(`Straight.follows`).
-/

namespace Sda
namespace Processor

open Sda.Filter Lexpath Policy Docker

/-! ## Candidates of a tree -/

/-- The path is a clean one under `/dev` and leads to the device, over relative links and over
absolute links into `/dev` that relative links alone lead to, in at most `maxLinkHops` rounds. -/
def Tree.Followed (tree : Tree) (aliasPath : Path) (id : DeviceId) : Prop :=
  ∃ names here, (∀ name ∈ names, IsName name) ∧ aliasPath = devText names ∧
    tree.Follows maxLinkHops names here ∧ tree.entry here = some (.device id)

/-- The name is a candidate for the device, whatever the policy is. -/
def Finds {ν : Type} (dev : DevFs Unit ν) (aliasPath : Path) (id : DeviceId) : Prop :=
  ∀ judge, ∃ candidate, evaluateCandidate dev aliasPath judge () = (⟨candidate, none, none⟩, ()) ∧
    candidate.aliasPath = aliasPath ∧ candidate.kind = .device id

section Tree

variable {tree : Tree} {sysfs : Sysfs} {walk : Path → List Visit} {aliasPath : Path} {id : DeviceId}

theorem canonicalName_tree (sysfs : Sysfs) (id : DeviceId) :
    ∃ name, canonicalName (tree.dev sysfs walk) id () = (.ok name, ()) := by
  obtain ⟨name, hname⟩ := sysfs.named id
  refine ⟨name, ?_⟩
  have hread : Action.mapErr Cause.sys ((tree.dev sysfs walk).readUevent id) () =
      (.ok (sysfs.uevent id), ()) := rfl
  refine (Action.bind_of_ok hread).trans ?_
  rw [Action.ofExcept, hname]

theorem finds_iff : Finds (tree.dev sysfs walk) aliasPath id ↔ tree.Followed aliasPath id := by
  constructor
  · intro h
    obtain ⟨candidate, heval, -, hkind⟩ := h ⟨⟨.all, none, none, rfl, rfl⟩, .default⟩
    unfold evaluateCandidate at heval
    split at heval
    next => cases heval
    next hunder =>
      obtain ⟨names, hnames, rfl⟩ := underDev_iff.mp (by simpa using hunder)
      split at heval
      next => cases heval
      next => cases heval
      next here s hopen =>
        rw [openCandidate, relToDev_devText] at hopen
        refine ⟨names, here, hnames, rfl, (openFrom_iff hnames).mp hopen, ?_⟩
        cases hentry : tree.entry here with
        | none => simp only [Tree.dev, hentry] at heval; cases heval; cases hkind
        | some entry =>
          cases entry with
          | dir => simp only [Tree.dev, hentry] at heval; cases heval; cases hkind
          | link target => simp only [Tree.dev, hentry] at heval; cases heval; cases hkind
          | device other =>
            obtain ⟨name, hname⟩ := @canonicalName_tree tree walk sysfs other
            have hstat : (tree.dev sysfs walk).stat here s = (.ok (.device other), s) := by
              simp only [Tree.dev, hentry]
            rw [hstat] at heval
            dsimp only at heval
            rw [show ((tree.dev sysfs walk).resolved here s).2 = () from rfl, hname] at heval
            cases heval
            cases hkind
            rfl
  · rintro ⟨names, here, hnames, rfl, hfollows, hentry⟩ judge
    have hopen := (@openFrom_iff tree sysfs walk (devText names) _ _ _ hnames).mpr hfollows
    have hstat : (tree.dev sysfs walk).stat here () = (.ok (.device id), ()) := by
      simp only [Tree.dev, hentry]
    obtain ⟨name, hname⟩ := @canonicalName_tree tree walk sysfs id
    have hunder : underDev (devText names) = true := underDev_iff.mpr ⟨names, hnames, rfl⟩
    unfold evaluateCandidate
    rw [if_neg (by simp [hunder]), openCandidate, relToDev_devText, hopen]
    dsimp only
    rw [hstat]
    dsimp only
    rw [show ((tree.dev sysfs walk).resolved here ()).2 = () from rfl, hname]
    exact ⟨_, rfl, rfl, rfl⟩

end Tree

/-! ## Denied names -/

section Lists

variable {ν : Type} {dev : DevFs Unit ν} {judge : Judge} {aliasPath : Path} {candidate : Candidate}
  {id : DeviceId}

/-- The mount lists the name: it is the mount source, or an entry of the directory that is mounted.
-/
inductive Lists (dev : DevFs Unit ν) (judge : Judge) (mount : MountPoint) : Path → Prop
  | source : Lists dev judge mount mount.source
  | entry {found : Evaluated} {visit : Visit} {base : Path}
      (hdir : evaluateCandidate dev mount.source judge () = (found, ())) (herr : found.err = none)
      (hskip : found.skip = none) (hkind : found.candidate.kind = .dir)
      (hbase : base = join [dev.root, relToDev found.candidate.resolved])
      (hvisit : visit ∈ (dev.walk base ()).1) (hok : visit.error = none)
      (hleaf : visit.isDir = false) (hbelow : visit.path ≠ base) :
      Lists dev judge mount (mount.source ++
        if base.isPrefixOf visit.path then visit.path.drop base.length else visit.path)

/-- A deny glob that matches the name keeps the device from every container that lists the name. -/
def Vetoes (dev : DevFs Unit ν) (aliasPath : Path) (id : DeviceId) : Prop :=
  ∀ (info : ContainerInspect) (policy : Global) (container : Container),
    Container.parse (info.labels.getD fun _ => none) = .ok container →
    (Judge.mk policy container).Denies aliasPath →
    ∀ mount ∈ info.mounts, isDeviceMount mount = true →
      Lists dev ⟨policy, container⟩ mount aliasPath →
      grantRule id ∉ (computeDesired (fun s => (.ok dev, s)) info policy ()).1.rules

/-- Nothing that was found is lost. -/
structure MountResult.Grows (before after : MountResult) : Prop where
  candidates : before.candidates ⊆ after.candidates
  errs : before.errs ⊆ after.errs

namespace MountResult.Grows

variable {before after last : MountResult}

theorem refl (result : MountResult) : result.Grows result := ⟨fun _ => id, fun _ => id⟩

theorem trans (h : before.Grows after) (h' : after.Grows last) : before.Grows last :=
  ⟨fun _ hc => h'.candidates (h.candidates hc), fun _ he => h'.errs (h.errs he)⟩

theorem addSkip (result : MountResult) : result.Grows result.addSkip := ⟨fun _ => id, fun _ => id⟩

theorem addError (result : MountResult) (error : DeviceError) :
    result.Grows (result.addError error) :=
  ⟨fun _ => id, fun _ => List.mem_append_left _⟩

theorem addCandidate (result : MountResult) (candidate : Candidate) :
    result.Grows (result.addCandidate candidate) :=
  ⟨fun _ => List.mem_append_left _, fun _ => id⟩

end MountResult.Grows

/-- A walk goes on, or ends with an error. -/
theorem visitEntry_grows (source base : Path) (state : MountWalkState) (visit : Visit) :
    state.result.Grows (visitEntry dev source base judge state visit ()).1.1.result ∧
      ((visitEntry dev source base judge state visit ()).1.2 = false →
        (visitEntry dev source base judge state visit ()).1.1.result.errs ≠ []) := by
  unfold visitEntry
  dsimp only
  split
  next => exact ⟨.addError _ _, nofun⟩
  next =>
    split
    next => exact ⟨.refl _, nofun⟩
    next =>
      split
      next => exact ⟨.addError _ _, fun _ => MountResult.addError_ne_nil _ _⟩
      next =>
        split
        next => exact ⟨.refl _, nofun⟩
        next =>
          split
          next => exact ⟨.addError _ _, nofun⟩
          next => exact ⟨.addSkip _, nofun⟩
          next => exact ⟨.addCandidate _ _, nofun⟩
          next => exact ⟨.addSkip _, nofun⟩

theorem visitAll_grows (source base : Path) (visits : List Visit) (state : MountWalkState) :
    state.result.Grows (visitAll dev source base judge visits state ()).1 := by
  induction visits generalizing state with
  | nil => exact .refl _
  | cons visit visits ih =>
    have hgrows := (@visitEntry_grows ν dev judge source base state visit).1
    unfold visitAll
    split
    next heq => rw [heq] at hgrows; exact hgrows.trans (ih _)
    next heq => rw [heq] at hgrows; exact hgrows

/-- The candidate of a name that is visited is found, or there is an error. -/
theorem visitAll_finds {source base : Path} {visits : List Visit} {visit : Visit}
    {state : MountWalkState} (hvisit : visit ∈ visits) (hok : visit.error = none)
    (hleaf : visit.isDir = false) (hbelow : visit.path ≠ base)
    (halias : aliasPath = source ++
      if base.isPrefixOf visit.path then visit.path.drop base.length else visit.path)
    (heval : evaluateCandidate dev aliasPath judge () = (⟨candidate, none, none⟩, ()))
    (hkind : candidate.kind = .device id) :
    (visitAll dev source base judge visits state ()).1.errs ≠ [] ∨
      candidate ∈ (visitAll dev source base judge visits state ()).1.candidates := by
  have herrs : ∀ {before after : MountResult}, before.Grows after → before.errs ≠ [] →
      after.errs ≠ [] :=
    fun hgrows hne hnil => hne (List.eq_nil_iff_forall_not_mem.mpr fun error he =>
      List.not_mem_nil (hnil ▸ hgrows.errs he))
  induction visits generalizing state with
  | nil => cases hvisit
  | cons first visits ih =>
    obtain ⟨-, hended⟩ := @visitEntry_grows ν dev judge source base state first
    rcases List.mem_cons.mp hvisit with rfl | hlater
    · have hentry : visitEntry dev source base judge state visit () =
          if maxMountEntries < state.entries + 1 then
            ((⟨state.result.addError (.mountTooLarge source), state.entries + 1⟩, false), ())
          else ((⟨state.result.addCandidate candidate, state.entries + 1⟩, true), ()) := by
        unfold visitEntry
        dsimp only
        rw [hok, ← halias, heval]
        dsimp only
        rw [if_neg hbelow, hleaf, hkind]
        rfl
      rw [visitAll, hentry]
      by_cases hmax : maxMountEntries < state.entries + 1
      · rw [if_pos hmax]
        exact .inl (MountResult.addError_ne_nil _ _)
      · rw [if_neg hmax]
        refine .inr ((visitAll_grows source base visits _).candidates ?_)
        exact List.mem_append_right _ List.mem_cons_self
    · unfold visitAll
      split
      next heq => exact ih hlater
      next heq =>
        rw [heq] at hended
        exact .inl (hended rfl)

theorem collectMountRules_finds {mount : MountPoint} (hlists : Lists dev judge mount aliasPath)
    (heval : evaluateCandidate dev aliasPath judge () = (⟨candidate, none, none⟩, ()))
    (hkind : candidate.kind = .device id) :
    (collectMountRules dev mount.source judge ()).1.errs ≠ [] ∨
      candidate ∈ (collectMountRules dev mount.source judge ()).1.candidates := by
  cases hlists with
  | source =>
    rw [collectMountRules, heval]
    dsimp only
    rw [hkind]
    exact .inr List.mem_cons_self
  | entry hdir herr hskip hdirKind hbase hvisit hok hleaf hbelow =>
    rw [collectMountRules, hdir]
    dsimp only
    rw [herr, hskip, hdirKind]
    dsimp only
    unfold walkMount
    dsimp only
    rw [← hbase]
    exact visitAll_finds hvisit hok hleaf hbelow rfl heval hkind

theorem mem_mountResults {mounts : List MountPoint} {mount : MountPoint} (h : mount ∈ mounts) :
    (collectMountRules dev mount.source judge ()).1 ∈ mountResults dev judge mounts () := by
  induction mounts with
  | nil => cases h
  | cons first mounts ih =>
    rcases List.mem_cons.mp h with rfl | h
    · exact List.mem_cons_self
    · exact List.mem_cons_of_mem _ (ih h)

/-- A name that is a candidate has its deny vote heard. -/
theorem Finds.vetoes (h : Finds dev aliasPath id) : Vetoes dev aliasPath id := by
  intro info policy container hparse hdenies mount hmount hdevice hlists hrule
  obtain ⟨container', dev', s, hparse', hopen, herrs, hgranted⟩ := computeDesired_granted hrule
  rw [hparse] at hparse'
  cases hparse'
  cases hopen
  obtain ⟨candidate, heval, halias, hkind⟩ := h ⟨policy, container⟩
  obtain ⟨devices, hrules, -, hmem⟩ :=
    collectContainerRules_devices dev ⟨policy, container⟩ info.mounts ()
  have hin := @mem_mountResults ν dev ⟨policy, container⟩ _ _
    (List.mem_filter.mpr ⟨hmount, hdevice⟩)
  rcases collectMountRules_finds hlists heval hkind with hmounterrs | hcandidate
  · have hall : (mountResults dev ⟨policy, container⟩ (info.mounts.filter isDeviceMount) ()).flatMap
        (·.errs) = [] := by
      rw [← herrs]
      exact (@collectFrom_errs Unit ν dev ⟨policy, container⟩ () (info.mounts.filter isDeviceMount)
        ContainerRules.default Aggregation.default).symm
    exact hmounterrs (List.flatMap_eq_nil_iff.mp hall _ hin)
  · rw [hrules] at hgranted
    obtain ⟨other, hother, heq⟩ := List.mem_map.mp hgranted
    obtain rfl := grantRule_injective heq
    have hgrants := (hmem other).mp hother
    refine hgrants.2 candidate (List.mem_flatMap.mpr ⟨_, hin, hcandidate⟩) hkind
      aliasPath ?_ hdenies
    rw [Candidate.names, halias]
    split
    all_goals exact List.mem_cons_self

end Lists

/-! ## Trees without such links -/

/-- No relative link leads to an absolute one or out of the tree, and absolute targets are clean. -/
structure Straight (tree : Tree) : Prop where
  relative : ∀ dir name target, tree.entry (dir ++ [name]) = some (.link target) →
    target.head? ≠ some '/' → ∀ links, tree.lookup beneath links dir
      (elements target) ≠ .error Errno.xdev
  absolute : ∀ dir name target, tree.entry (dir ++ [name]) = some (.link target) →
    target.head? = some '/' → clean target = target

section Straight

variable {tree : Tree}

theorem part_link_entry {here : List Path} {name target : Path}
    (h : tree.part here name = .link target) :
    tree.entry (here ++ [name]) = some (.link target) := by
  unfold Tree.part at h
  split at h
  next => cases h
  next =>
    split at h
    next => cases h
    next =>
      split at h
      next => split at h <;> cases h
      next =>
        split at h
        next => cases h
        next heq => cases h; exact heq
        next => cases h

/-- A path that resolves is opened by the kernel, or refused at a part that is an absolute link,
from whose target the resolution goes on with fewer links. -/
theorem Straight.opened_or_refused (hstraight : Straight tree) {links more left : Nat}
    {here parts last : List Path} (h : tree.lookup intoDev links here parts = .ok (last, left)) :
    tree.lookup beneath (links + more) here parts = .ok (last, left + more) ∨
      ∃ front name back dir target inner rest links',
        parts = front ++ name :: back ∧
        tree.lookup beneath (links + more) here front = .ok (dir, rest + 1) ∧
        tree.part dir name = .link target ∧ target.head? = some '/' ∧
        intoDev target = some inner ∧ links' < links ∧
        tree.lookup intoDev links' [] (inner ++ back) = .ok (last, left) := by
  induction links using Nat.strong_induction_on generalizing here parts last left with
  | _ links ihlinks =>
    induction parts generalizing here with
    | nil =>
      rw [Tree.lookup_nil] at h ⊢
      cases h
      exact .inl rfl
    | cons name parts ih =>
      cases hpart : tree.part here name with
      | fail errno => rw [Tree.lookup_fail hpart] at h; cases h
      | go next =>
        rw [Tree.lookup_go hpart] at h ⊢
        rcases ih h with hok | ⟨front, part, back, dir, target, inner, rest, links', rfl,
          hfront, hlink⟩
        · exact .inl hok
        · refine .inr ⟨name :: front, part, back, dir, target, inner, rest, links', rfl, ?_, hlink⟩
          rw [Tree.lookup_go hpart, hfront]
      | link target =>
        cases links with
        | zero => rw [Tree.lookup_link_zero hpart] at h; cases h
        | succ links =>
          rw [Tree.lookup_link hpart, Tree.expand] at h
          by_cases habsolute : target.head? = some '/'
          · rw [if_pos habsolute] at h
            cases hinto : intoDev target with
            | none => rw [hinto] at h; cases h
            | some inner =>
              rw [hinto] at h
              refine .inr ⟨[], name, parts, here, target, inner, links + more, links,
                rfl, ?_, hpart, habsolute, hinto, Nat.lt_succ_self _, h⟩
              rw [Tree.lookup_nil, Nat.add_right_comm]
          · rw [if_neg habsolute] at h
            obtain ⟨middle, links₁, htarget, hparts⟩ := Tree.lookup_append_inv h
            have hle := Tree.lookup_left_le htarget
            have hstep : ∀ rest, tree.lookup beneath (links + 1 + more) here (name :: rest) =
                tree.lookup beneath (links + more) here (elements target ++ rest) := by
              intro rest
              rw [Nat.add_right_comm, Tree.lookup_link hpart, Tree.expand, if_neg habsolute]
            rcases ihlinks links (Nat.lt_succ_self _) htarget with hok |
              ⟨front, part, back, dir, inner, _, rest, _, heq, hfront, hlink, habs, -, -, -⟩
            · -- The target is walked; what comes after it is looked up from there.
              rcases ihlinks links₁ (Nat.lt_succ_of_le hle) hparts with hrest |
                ⟨front, part, back, dir, inner, parts', rest, links', rfl, hfront,
                  hlink, habs, hinto, hlt, hrest⟩
              · left
                rw [hstep, Tree.lookup_append_ok hok, hrest]
              · refine .inr ⟨name :: front, part, back, dir, inner, parts', rest, links',
                  rfl, ?_, hlink,
                  habs, hinto, Nat.lt_succ_of_lt (Nat.lt_of_lt_of_le hlt hle), hrest⟩
                rw [hstep, Tree.lookup_append_ok hok, hfront]
            · -- An absolute link behind the relative one.
              exfalso
              refine hstraight.relative here name target (part_link_entry hpart) habsolute
                (links + more) ?_
              rw [heq]
              exact Tree.lookup_front_error (Tree.lookup_absolute hfront hlink habs)

/-- The parts of a clean target are names, after one that stays where it is. -/
theorem intoDev_clean {target : Path} {inner : List Path} (hinto : intoDev target = some inner)
    (hclean : clean target = target) :
    ∃ names, (∀ name ∈ names, IsName name) ∧ target = devText names ∧
      ∀ links back, tree.lookup intoDev links [] (inner ++ back) =
        tree.lookup intoDev links [] (names ++ back) := by
  have hpart : tree.part [] [] = .go [] := by
    rw [Tree.part, if_neg (fun h => h tree.root), if_pos (.inl rfl)]
  unfold intoDev at hinto
  split at hinto
  swap
  · cases hinto
  next hdev =>
    obtain ⟨names, hnames, rfl⟩ := @underDev_iff target |>.mp (by
      rw [underDev, isMountSource, hclean]
      simpa using hdev)
    refine ⟨names, hnames, rfl, fun links back => ?_⟩
    obtain rfl := Option.some.inj hinto
    rw [devText_eq, List.drop_left]
    by_cases hne : names = []
    · subst hne
      rw [if_pos rfl, List.nil_append]
      exact Tree.lookup_go hpart
    · rw [if_neg hne, elements_rooted,
        elements_intercalate (fun name hn => (hnames name hn).no_sep) hne]
      exact Tree.lookup_go hpart

theorem Tree.Follows.mono {rounds rounds' : Nat} {names here : List Path}
    (h : tree.Follows rounds names here) (hle : rounds ≤ rounds') :
    tree.Follows rounds' names here := by
  induction h generalizing rounds' with
  | direct h =>
    obtain ⟨more, rfl⟩ := Nat.exists_eq_add_of_lt hle
    exact .direct h
  | hop hbefore hlink habsolute hdev hrest ih =>
    cases rounds' with
    | zero => cases hle
    | succ rounds' => exact .hop hbefore hlink habsolute hdev (ih (Nat.le_of_succ_le_succ hle))

/-- In a straight tree a clean name that resolves is followed. -/
theorem Straight.follows (hstraight : Straight tree) {links left : Nat} {names last : List Path}
    (hlinks : links ≤ kernelLinks) (hnames : ∀ name ∈ names, IsName name)
    (h : tree.lookup intoDev links [] names = .ok (last, left)) :
    tree.Follows (links + 1) names last := by
  induction links using Nat.strong_induction_on generalizing names with
  | _ links ih =>
    obtain ⟨more, hmore⟩ := Nat.exists_eq_add_of_le hlinks
    rcases @Straight.opened_or_refused tree hstraight links more _ _ _ _ h with hok |
      ⟨front, name, back, dir, target, inner, rest, links', rfl, hfront, hpart, habsolute,
        hinto, hlt, hrest⟩
    · rw [← hmore] at hok
      exact .direct hok
    · rw [← hmore] at hfront
      have hentry := part_link_entry hpart
      obtain ⟨names, hall, htarget, hlookup⟩ := @intoDev_clean tree target inner hinto
        (hstraight.absolute dir name target hentry habsolute)
      rw [hlookup] at hrest
      have hback : ∀ part ∈ names ++ back, IsName part := fun part hp =>
        (List.mem_append.mp hp).elim (hall part) fun hp => hnames part (by simp [hp])
      have hnormal := (underDev_clean habsolute names).mpr
        ⟨hall, (hstraight.absolute dir name target hentry habsolute).trans htarget⟩
      exact .hop hfront hentry habsolute hnormal
        ((ih links' hlt (Nat.le_of_lt (Nat.lt_of_lt_of_le hlt hlinks)) hback hrest).mono hlt)

theorem Straight.followed (hstraight : Straight tree) {aliasPath : Path} {id : DeviceId}
    (h : tree.Resolves aliasPath id) (hclean : clean aliasPath = aliasPath) :
    tree.Followed aliasPath id := by
  obtain ⟨parts, here, left, hinto, hlookup, hentry⟩ := h
  obtain ⟨names, hnames, rfl, hsame⟩ := @intoDev_clean tree aliasPath parts hinto hclean
  have hnames' := hsame (maxLinkHops - 1) []
  rw [List.append_nil, List.append_nil, hlookup] at hnames'
  exact ⟨names, here, hnames, rfl, hstraight.follows (by decide) hnames hnames'.symm, hentry⟩

end Straight

/-! ## The result -/

/-- **Which names of a device are judged.** A name that resolves to a device within `/dev` is a
candidate for it, with its deny votes heard, exactly if it is clean and `open_candidate` can follow
it. In a tree where no relative link leads to an absolute one and absolute targets are clean, every
clean name is. -/
theorem name_judged_iff (tree : Tree) (sysfs : Sysfs) (walk : Path → List Visit) (aliasPath : Path)
    (id : DeviceId) (h : tree.Resolves aliasPath id) :
    (Finds (tree.dev sysfs walk) aliasPath id ∧ Vetoes (tree.dev sysfs walk) aliasPath id ↔
      tree.Followed aliasPath id) ∧
    (Straight tree → clean aliasPath = aliasPath → tree.Followed aliasPath id) :=
  ⟨⟨fun hfinds => finds_iff.mp hfinds.1,
    fun hfollowed => ⟨finds_iff.mpr hfollowed, (finds_iff.mpr hfollowed).vetoes⟩⟩,
    fun hstraight => hstraight.followed h⟩

/-- A tree of one directory. -/
def Tree.flat (entries : List (Path × Entry)) : Tree where
  entry
    | [] => some .dir
    | [name] => entries.lookup name
    | _ => none
  root := rfl
  parent := by
    intro dir name h
    cases dir with
    | nil => rfl
    | cons first dir =>
      cases dir with
      | nil => exact absurd rfl h
      | cons second dir => exact absurd rfl h

def sdaId : DeviceId := ⟨.block, 8, 0⟩

def sdaSysfs : Sysfs where
  uevent _ := "DEVNAME=sda".toList.map fun c => BitVec.ofNat 8 c.toNat
  named _ := ⟨"/dev/sda".toList, by decide +kernel⟩

/-- An absolute link to a device. -/
def plantedTree : Tree :=
  .flat [("evil".toList, .link "/dev/sda".toList), ("sda".toList, .device sdaId)]

theorem plantedTree_followed : plantedTree.Followed "/dev/evil".toList sdaId := by
  have hbefore : plantedTree.lookup beneath kernelLinks [] [] = .ok ([], 39 + 1) := rfl
  have hnormal : normal "/dev/sda".toList = "dev".toList :: ["sda".toList] := by decide +kernel
  have hlast : plantedTree.lookup beneath kernelLinks [] (["sda".toList] ++ []) =
      .ok (["sda".toList], kernelLinks) := by decide +kernel
  refine ⟨["evil".toList], ["sda".toList], fun name hn => ?_, by decide +kernel, ?_, rfl⟩
  · rw [List.mem_singleton.mp hn]
    exact ⟨by decide, by decide, by decide, by decide⟩
  · exact .hop hbefore rfl rfl hnormal (.direct hlast)

theorem name_judged_iff_planted :
    Finds (plantedTree.dev sdaSysfs fun _ => []) "/dev/evil".toList sdaId ∧
      Vetoes (plantedTree.dev sdaSysfs fun _ => []) "/dev/evil".toList sdaId :=
  (name_judged_iff plantedTree sdaSysfs (fun _ => []) "/dev/evil".toList sdaId
    ⟨_, ["sda".toList], 38, rfl, by decide +kernel, rfl⟩).1.mpr plantedTree_followed

/-- A relative link to an absolute link to a device. -/
def chainTree : Tree :=
  .flat [("a".toList, .link "b".toList), ("b".toList, .link "/dev/sda".toList),
  ("sda".toList, .device sdaId)]

def denyA : Global := ⟨.all, none, some ["/dev/a".toList], validateGlobs_none, by decide +kernel⟩

/-- The name resolves to the device in two steps, and is skipped as if it left `/dev`; the device is
granted by its other name although the name is denied. -/
theorem chain_name_skipped :
    chainTree.Resolves "/dev/a".toList sdaId ∧
    (evaluateCandidate (chainTree.dev sdaSysfs fun _ => []) "/dev/a".toList
      ⟨denyA, .default⟩ ()).1.skip =
      some .outsideDev ∧
    denyA.denied .default "/dev/a".toList = true ∧
    grantRule sdaId ∈ (computeDesired (fun s => (.ok (chainTree.dev sdaSysfs fun _ => []), s))
      ⟨none, none, none, [⟨"bind", "/dev/a".toList⟩, ⟨"bind", "/dev/sda".toList⟩]⟩ denyA
      ()).1.rules :=
  ⟨⟨_, ["sda".toList], 37, rfl, by decide +kernel, rfl⟩, by decide +kernel, by decide +kernel,
    by decide +kernel⟩

end Processor
end Sda
