import DeviceAccess.Processor.Tree
import DeviceAccess.Processor.Narrow

/-!
# The names that policy judges (`src/processor/{rules,devfs}.rs`)

Globs are written for clean names, so a name that is not in normal form could dodge a deny glob. A
device is judged under three names from three sources:

* the alias, which `under_dev` gates;
* the resolved name, which `RealDevNode::resolved` makes of the text of a `/proc/self/fd` link;
* the canonical name, which `canonical_name` makes of the `DEVNAME` in a uevent.

The first two are always in normal form. `canonical_name` refuses `..` and what begins with `../`,
but not the third clean relative path that names nothing, `.`: `DEVNAME=.` gives `/dev/.`, which is
not clean, and names `/dev` itself.
-/

namespace Sda
namespace Processor

open Lexpath Policy

/-! ## The resolved name -/

/-- `relative_beneath`: `target` relative to `dir`, when it is `dir` or below it. -/
def relativeBeneath (dir target : Path) : Option Path :=
  if target.head? ≠ some '/' then none
  else
    let dir := clean dir
    let target := clean target
    if dir = target then some dot
    else
      let front := (if dir = ['/'] then [] else dir) ++ ['/']
      if front.isPrefixOf target then some (target.drop front.length) else none

/-- `RealDevNode::resolved`, for a node that was opened below `dir`. `link` is the text of its link
in `/proc/self/fd`, if that could be read. -/
def resolvedName (dir : Path) (link : Option Bytes) : Path :=
  match link with
  | none => []
  | some target =>
    match relativeBeneath dir (Text.fromUtf8Lossy target) with
    | some rel => join [devRoot, rel]
    | none => []

variable {σ ν : Type}

/-- The same `/dev` with nodes that are descriptors: `fdLink` reads a node's link in
`/proc/self/fd`. -/
def DevFs.withFdLinks (dev : DevFs σ ν) (dir : Path) (fdLink : ν → σ → Option Bytes × σ) :
    DevFs σ ν :=
  { dev with resolved := fun node s => (resolvedName dir (fdLink node s).1, (fdLink node s).2) }

/-! ## Normal form -/

/-- A clean path that is `/dev` or below it. -/
structure NormalName (path : Path) : Prop where
  clean : clean path = path
  inDev : path = devRoot ∨ devPrefix <+: path

/-- The names a device is judged under are in normal form, and its canonical name, if it has one, is
below `/dev`. -/
structure Candidate.NormalNames (candidate : Candidate) : Prop where
  aliasPath : NormalName candidate.aliasPath
  resolved : NormalName candidate.resolved
  canonical : candidate.canonical ≠ [] → NormalName candidate.canonical ∧
    candidate.canonical ≠ devRoot

/-- The uevent's one `DEVNAME` is `.`. -/
def NamesDot (uevent : Except SysError Bytes) : Prop :=
  ∃ data, uevent = .ok data ∧ ∃ lines, (Text.lines data).mapM id = .ok lines ∧
    (lines.map Text.fromUtf8Lossy).filterMap devnameValue = [dot]

/-- `evaluate_candidate` comes to judge a device: the alias passes the gate and opens as a device
whose link has the text `link`, and the device's uevent is `uevent`. -/
def ComesToJudge (dev : DevFs σ ν) (fdLink : ν → σ → Option Bytes × σ) (aliasPath : Path) (s : σ)
    (link : Option Bytes) (uevent : Except SysError Bytes) : Prop :=
  underDev aliasPath = true ∧ ∃ node id s₁ s₂, openCandidate dev aliasPath
    s = (.ok (.node node), s₁) ∧
    dev.stat node s₁ = (.ok (.device id), s₂) ∧ (fdLink node s₂).1 = link ∧
    (dev.readUevent id (fdLink node s₂).2).1 = uevent

section Names

variable {path dir target rel : Path}

theorem normalName_iff : NormalName path ↔ underDev path = true := by
  unfold underDev isMountSource
  rw [Bool.and_eq_true, beq_iff_eq, Bool.or_eq_true, beq_iff_eq, List.isPrefixOf_iff_prefix]
  exact ⟨fun h => ⟨h.clean, h.inDev⟩, fun h => ⟨h.1, h.2⟩⟩

theorem normalName_iff_devText :
    NormalName path ↔ ∃ names, (∀ name ∈ names, IsName name) ∧ path = devText names :=
  normalName_iff.trans underDev_iff

/-- What is left of a clean rooted path after a front of it is made of names. -/
theorem elements_after {front : Path} {names : List Path} (h : ∀ name ∈ names, IsName name)
    (hne : names ≠ []) (htext : text true names = front ++ '/' :: rel) :
    ∀ name ∈ elements rel, IsName name := by
  have helements := congrArg elements htext
  rw [text_of_ne_nil hne, render, if_pos rfl, elements_rooted, elements_sep,
    elements_intercalate (fun name hn => (h name hn).no_sep) hne] at helements
  -- The front has an element of its own.
  obtain ⟨first, rest, hfront⟩ := List.exists_cons_of_ne_nil (List.splitOn_ne_nil '/' front)
  have hfront : elements front = first :: rest := hfront
  rw [hfront, List.cons_append] at helements
  intro name hn
  refine h name ?_
  rw [(List.cons.inj helements).2]
  exact List.mem_append_right _ hn

theorem join_devRoot (h : ∀ name ∈ elements rel, IsName name) :
    join [devRoot, rel] = devText (elements rel) := by
  rw [(join_rooted (show devRoot.head? = some '/' from rfl) [rel]).1]
  have hparts : [devRoot, rel].flatMap elements = [] :: "dev".toList :: elements rel := by
    rw [List.flatMap_cons, show elements devRoot = [[], "dev".toList] by decide +kernel,
      List.flatMap_singleton]
    rfl
  rw [hparts, pushAll_empty, pushAll_names (dev_names h), List.nil_append]
  rfl

theorem relativeBeneath_normal (hdir : dir.head? = some '/')
    (h : relativeBeneath dir target = some rel) :
    NormalName (join [devRoot, rel]) := by
  unfold relativeBeneath at h
  by_cases hrooted : target.head? = some '/'
  swap
  · rw [if_pos hrooted] at h
    cases h
  rw [if_neg (fun hne => hne hrooted)] at h
  dsimp only at h
  by_cases hsame : clean dir = clean target
  · rw [if_pos hsame] at h
    cases h
    exact normalName_iff.mpr (by decide +kernel)
  rw [if_neg hsame] at h
  generalize hfront : (if clean dir = ['/'] then [] else clean dir) = front at h
  by_cases hbelow : (front ++ ['/']).isPrefixOf (clean target) = true
  swap
  · rw [if_neg hbelow] at h
    cases h
  rw [if_pos hbelow] at h
  obtain ⟨rest, hrest⟩ := List.isPrefixOf_iff_prefix.mp hbelow
  have hrel : rest = rel := by
    rw [← hrest, List.drop_left] at h
    exact Option.some.inj h
  subst hrel
  have htext : text true (normal target) = front ++ '/' :: rest := by
    rw [← clean_rooted hrooted, ← hrest, List.append_assoc]
    rfl
  have hne : normal target ≠ [] := by
    -- Only `/` itself has no names, and `/` is below no other directory.
    intro hnil
    rw [clean_rooted hrooted, hnil] at hsame
    rw [hnil] at htext
    have hshort := congrArg List.length htext
    have hfrontnil : front = [] := by
      rw [← List.length_eq_zero_iff]
      simp [text, render] at hshort
      omega
    rw [hfrontnil] at hfront
    split at hfront
    next hslash => exact hsame hslash
    next =>
      rw [clean_rooted hdir] at hfront
      simp [text, render] at hfront
  rw [join_devRoot (elements_after (normal_names hrooted) hne htext)]
  exact normalName_iff_devText.mpr ⟨_, elements_after (normal_names hrooted) hne htext, rfl⟩

theorem resolvedName_normal (hdir : dir.head? = some '/') {link : Option Bytes}
    (hne : resolvedName dir link ≠ []) :
    NormalName (resolvedName dir link) := by
  unfold resolvedName at hne ⊢
  split at hne
  next => exact absurd rfl hne
  next target =>
    cases hrel : relativeBeneath dir (Text.fromUtf8Lossy target) with
    | none =>
      rw [hrel] at hne
      exact absurd rfl hne
    | some rel => exact relativeBeneath_normal hdir hrel

end Names

/-! ## The canonical name -/

section Devname

variable {name : Path} {data : Bytes}

/-- A clean relative path that does not begin with `..` is made of names. -/
theorem clean_relative (hrelative : name.head? ≠ some '/') (hclean : clean name = name)
    (hup : name ≠ dotdot) (hups : ¬ "../".toList <+: name) :
    ∃ names, (∀ name ∈ names, IsName name) ∧ name = text false names := by
  have hhead : (name.head? == some '/') = false := by simpa using hrelative
  obtain ⟨ups, names, hstack⟩ := normal_isStack name
  have htext : name = text false (normal name) := by
    conv_lhs => rw [← hclean, clean_eq, hhead]
  cases ups with
  | zero =>
    refine ⟨names, hstack.names, ?_⟩
    rw [htext, hstack.eq]
    rfl
  | succ ups =>
    have hnormal : normal name = dotdot :: (List.replicate ups dotdot ++ names) := by
      rw [hstack.eq, List.replicate_succ]
      rfl
    rw [hnormal, text_of_ne_nil (List.cons_ne_nil _ _), render, if_neg Bool.false_ne_true] at htext
    exfalso
    cases hmore : List.replicate ups dotdot ++ names with
    | nil =>
      rw [hmore] at htext
      exact hup (htext.trans (List.intercalate_singleton ..))
    | cons next rest =>
      rw [hmore, List.intercalate_cons_cons] at htext
      exact hups ⟨_, htext.symm⟩

theorem text_eq_dot {names : List Path} (h : ∀ name ∈ names, IsName name) :
    text false names = dot ↔ names = [] := by
  constructor
  · intro hdot
    by_contra hne
    have helements := elements_text_false h hne
    rw [hdot, show elements dot = [dot] by decide +kernel] at helements
    exact (h dot (by rw [← helements]; exact List.mem_singleton_self dot)).not_dot rfl
  · rintro rfl
    rfl

/-- An accepted `DEVNAME` is made of names, and of none only when it is `.`. -/
theorem devname_inv {path : Path} (h : devname data = .ok path) :
    ∃ names, (∀ name ∈ names, IsName name) ∧ path = devRoot ++ '/' :: text false names ∧
      (NamesDot (.ok data) ↔ names = []) := by
  unfold devname at h
  split at h
  next => cases h
  next lines hlines =>
    split at h
    next name hname =>
      split at h
      next => cases h
      next hvalid =>
        cases h
        simp only [Bool.or_eq_true, not_or, bne_iff_ne, ne_eq, Decidable.not_not, beq_iff_eq,
          List.isPrefixOf_iff_prefix] at hvalid
        obtain ⟨⟨⟨⟨-, hrelative⟩, hclean⟩, hup⟩, hups⟩ := hvalid
        obtain ⟨names, hnames, rfl⟩ := clean_relative hrelative hclean hup hups
        refine ⟨names, hnames, rfl, ?_⟩
        rw [← text_eq_dot hnames]
        constructor
        · rintro ⟨data', hdata, lines', hlines', hdot⟩
          cases hdata
          rw [hlines] at hlines'
          cases hlines'
          rw [hname] at hdot
          exact (List.cons.inj hdot).1
        · intro hdot
          exact ⟨data, rfl, lines, hlines, by rw [hname, hdot]⟩
    next => cases h

/-- `.` is accepted. -/
theorem devname_of_dot (h : NamesDot (.ok data)) : devname data = .ok (devRoot ++ '/' :: dot) := by
  obtain ⟨data', hdata, lines, hlines, hdot⟩ := h
  cases hdata
  unfold devname
  rw [hlines]
  dsimp only
  rw [hdot]
  decide +kernel

/-- `/dev/.` is the one canonical name that is not in normal form. -/
theorem canonical_normal_iff {path : Path} (h : devname data = .ok path) :
    NormalName path ∧ path ≠ devRoot ↔ ¬ NamesDot (.ok data) := by
  obtain ⟨names, hnames, rfl, hdot⟩ := devname_inv h
  rw [hdot]
  constructor
  · rintro ⟨hnormal, -⟩ rfl
    revert hnormal
    rw [normalName_iff]
    decide +kernel
  · intro hne
    have htext : devRoot ++ '/' :: text false names = devText names := by
      rw [devText_eq, if_neg hne, text_of_ne_nil hne]
      rfl
    rw [htext]
    refine ⟨normalName_iff_devText.mpr ⟨names, hnames, rfl⟩, fun hroot => hne ?_⟩
    exact devText_injective hnames nofun hroot

end Devname

/-! ## What is judged -/

section Judged

variable {dev : DevFs σ ν} {aliasPath : Path} {judge : Judge} {s s₁ s₂ : σ} {node : ν}
  {id : DeviceId}

theorem canonicalName_fst (dev : DevFs σ ν) (id : DeviceId) (s : σ) : (canonicalName dev id s).1 =
    match (dev.readUevent id s).1 with
    | .ok data => devname data
    | .error error => .error (.sys error) := by
  unfold canonicalName
  cases h : dev.readUevent id s with
  | mk r s' =>
    cases r with
    | error error => rw [Action.bind_of_error (Action.mapErr_of_error h)]
    | ok data =>
      rw [Action.bind_of_ok (Action.mapErr_of_ok h)]
      rfl

/-- The candidate of an alias that opens as a device. -/
theorem evaluateCandidate_device (hunder : underDev aliasPath = true)
    (hopen : openCandidate dev aliasPath s = (.ok (.node node), s₁))
    (hstat : dev.stat node s₁ = (.ok (.device id), s₂)) :
    let found := (evaluateCandidate dev aliasPath judge s).1.candidate
    found.aliasPath = aliasPath ∧ found.kind = .device id ∧
      found.resolved = (if (dev.resolved node s₂).1.isEmpty then aliasPath else
        (dev.resolved node s₂).1) ∧
      found.canonical = ((canonicalName dev id (dev.resolved node s₂).2).1.toOption.getD []) := by
  unfold evaluateCandidate
  simp only [hunder, hopen, hstat, Bool.not_true, Bool.false_eq_true, if_false]
  rcases canonicalName dev id (dev.resolved node s₂).2 with ⟨cause | canonical, s₃⟩
  · exact ⟨rfl, rfl, rfl, rfl⟩
  · exact ⟨rfl, rfl, rfl, rfl⟩

/-- Only an alias that opens as a device is judged. -/
theorem evaluateCandidate_device_inv
    (h : (evaluateCandidate dev aliasPath judge s).1.candidate.kind = .device id) :
    underDev aliasPath = true ∧
    ∃ node s₁ s₂, openCandidate dev aliasPath s = (.ok (.node node), s₁) ∧
      dev.stat node s₁ = (.ok (.device id), s₂) := by
  unfold evaluateCandidate at h
  by_cases hunder : underDev aliasPath = true
  swap
  · simp only [hunder] at h
    cases h
  refine ⟨hunder, ?_⟩
  rcases hopen : openCandidate dev aliasPath s with ⟨error | ⟨node | reason⟩, s₁⟩
  · simp only [hunder, hopen] at h
    cases h
  · rcases hstat : dev.stat node s₁ with ⟨error | kind, s₂⟩
    · simp only [hunder, hopen, hstat] at h
      cases h
    · refine ⟨node, s₁, s₂, rfl, ?_⟩
      simp only [hunder, hopen, hstat] at h
      cases kind with
      | dir => cases h
      | other => cases h
      | device id' =>
        rcases hname : canonicalName dev id' (dev.resolved node s₂).2 with ⟨cause | canonical, s₃⟩
        all_goals
          simp only [hname] at h
          cases h
          exact hstat
  · simp only [hunder, hopen] at h
    cases h

end Judged

/-- Policy judges names in normal form unless sysfs names the device `.`. For every `/dev` directory
given by an absolute path, whatever the links in `/proc/self/fd` and the uevents say: a device is
judged exactly when the alias comes to it, and then its names are in normal form, with the canonical
one below `/dev`, exactly when the uevent's one `DEVNAME` is not `.`. -/
theorem judged_names_normal_iff (dev : DevFs σ ν) (dir : Path) (hdir : dir.head? = some '/')
    (fdLink : ν → σ → Option Bytes × σ) (aliasPath : Path) (judge : Judge) (s : σ) :
    ((∃ id, (evaluateCandidate (dev.withFdLinks dir fdLink) aliasPath judge s).1.candidate.kind =
      .device id) ↔
      ∃ link uevent, ComesToJudge (dev.withFdLinks dir fdLink) fdLink aliasPath s link uevent) ∧
    ∀ link uevent, ComesToJudge (dev.withFdLinks dir fdLink) fdLink aliasPath s link uevent →
      ((evaluateCandidate (dev.withFdLinks dir fdLink) aliasPath judge s).1.candidate.NormalNames ↔
        ¬ NamesDot uevent) := by
  refine ⟨⟨?_, ?_⟩, ?_⟩
  · rintro ⟨id, hkind⟩
    obtain ⟨hunder, node, s₁, s₂, hopen, hstat⟩ := evaluateCandidate_device_inv hkind
    exact ⟨_, _, hunder, node, id, s₁, s₂, hopen, hstat, rfl, rfl⟩
  · rintro ⟨link, uevent, hunder, node, id, s₁, s₂, hopen, hstat, -⟩
    exact ⟨id, (evaluateCandidate_device hunder hopen hstat).2.1⟩
  · rintro link uevent ⟨hunder, node, id, s₁, s₂, hopen, hstat, -, huevent⟩
    obtain ⟨halias, -, hresolved, hcanonical⟩ :=
      @evaluateCandidate_device _ _ _ _ judge _ _ _ _ _ hunder hopen hstat
    have hname := canonicalName_fst (dev.withFdLinks dir fdLink) id (fdLink node s₂).2
    rw [huevent] at hname
    generalize (evaluateCandidate (dev.withFdLinks dir fdLink) aliasPath judge s).1.candidate =
      found at *
    -- The alias and the resolved name are in normal form anyway.
    have hnormal : found.NormalNames ↔
        (found.canonical ≠ [] → NormalName found.canonical ∧ found.canonical ≠ devRoot) := by
      refine ⟨fun h => h.canonical, fun h => ⟨halias ▸ normalName_iff.mpr hunder, ?_, h⟩⟩
      rw [hresolved]
      split
      next => exact normalName_iff.mpr hunder
      next hne => exact resolvedName_normal hdir fun hnil => hne (List.isEmpty_iff.mpr hnil)
    have hcanonical : found.canonical = (match uevent with
      | .ok data => devname data
      | .error error => .error (.sys error)).toOption.getD [] := hname ▸ hcanonical
    rw [hnormal, hcanonical]
    cases uevent with
    | error error => exact iff_of_true (fun h => absurd rfl h) fun ⟨_, h, _⟩ => nomatch h
    | ok data =>
      dsimp only
      cases hdevname : devname data with
      | error cause =>
        refine iff_of_true (fun h => absurd rfl h) fun hdot => ?_
        rw [devname_of_dot hdot] at hdevname
        cases hdevname
      | ok path =>
        rw [← canonical_normal_iff hdevname]
        exact ⟨fun h => h (devname_ne_nil hdevname), fun h _ => h⟩

/-- The link of a descriptor for `/dev/net/tun`. -/
def tunLink (_ : Unit) (s : Unit) : Option Bytes × Unit :=
  (some ("/dev/net/tun".toList.map fun c => BitVec.ofNat 8 c.toNat), s)

/-- Everything is permitted. -/
def permissive : Judge := ⟨⟨.all, none, none, validateGlobs_none, validateGlobs_none⟩, .default⟩

theorem judged_names_normal_iff_tun : (evaluateCandidate (tunDev.withFdLinks devRoot tunLink)
    "/dev/net/tun".toList permissive ()).1.candidate.NormalNames :=
  ((judged_names_normal_iff tunDev devRoot rfl tunLink "/dev/net/tun".toList permissive ()).2 _ _
    ⟨by decide +kernel, (), ⟨.char, 10, 200⟩, (), (), rfl, rfl, rfl, rfl⟩).mpr fun hdot =>
      absurd (devname_of_dot hdot) (by decide +kernel)

/-- The `/dev` of `tunDev`, whose device sysfs names `.`. -/
def dotDev : DevFs Unit Unit :=
  { tunDev with
    readUevent := fun _ s => (.ok ("DEVNAME=.".toList.map fun c => BitVec.ofNat 8 c.toNat), s) }

/-- A device is judged, and granted, under the canonical name `/dev/.`. -/
theorem dot_devname_judged :
    (evaluateCandidate (dotDev.withFdLinks devRoot tunLink) "/dev/net/tun".toList permissive ()).1 =
      ⟨⟨"/dev/net/tun".toList, "/dev/net/tun".toList, "/dev/.".toList, .device ⟨.char, 10, 200⟩,
        ⟨none, true⟩⟩, none, none⟩ ∧
    clean "/dev/.".toList = "/dev".toList ∧
    ¬ (evaluateCandidate (dotDev.withFdLinks devRoot tunLink) "/dev/net/tun".toList permissive
      ()).1.candidate.NormalNames := by
  have hfound :
    (evaluateCandidate (dotDev.withFdLinks devRoot tunLink) "/dev/net/tun".toList permissive ()).1 =
      ⟨⟨"/dev/net/tun".toList, "/dev/net/tun".toList, "/dev/.".toList, .device ⟨.char, 10, 200⟩,
        ⟨none, true⟩⟩, none, none⟩ := by
    decide +kernel
  refine ⟨hfound, by decide +kernel, fun h => ?_⟩
  rw [hfound] at h
  exact absurd (normalName_iff.mp (h.canonical (by decide)).1) (by decide +kernel)

end Processor
end Sda
