import DeviceAccess.Processor.Votes

/-!
# `/dev` as a tree

A tree of directories, devices and symlinks, and a lookup in it that follows symlinks. What an
absolute link means is a parameter: the kernel refuses it beneath `/dev` (`beneath`), and read as a
path of the tree it begins again at the root (`intoDev`).

`Follows` says what `open_candidate` can follow: as long as the kernel refuses a path because a part
of it, reached over relative links alone, is itself an absolute link into `/dev`, that part is
replaced by the cleaned target.
-/

namespace Sda

def Errno.notdir : Errno := 20
def Errno.loop : Errno := 40

namespace Processor

open Sda.Filter Lexpath Policy Docker

/-! ## Trees -/

/-- An entry of `/dev`. A link has the text it was made with. -/
inductive Entry where
  | dir
  | device (id : DeviceId)
  | link (target : Path)
  deriving DecidableEq, Repr

/-- What is at each path of names below `/dev`. -/
structure Tree where
  entry : List Path → Option Entry
  root : entry [] = some .dir
  parent : ∀ dir name, entry (dir ++ [name]) ≠ none → entry dir = some .dir

/-- What a lookup gives: where it ended and how many links it could still follow. -/
abbrev Lookup := Except Errno (List Path × Nat)

/-- What one part of a path does. -/
inductive Part where
  | fail (errno : Errno)
  | go (here : List Path)
  | link (target : Path)

/-- What an absolute target means: the parts from the root of the tree, if it is in the tree. -/
abbrev Jump := Path → Option (List Path)

/-- `RESOLVE_BENEATH`: no absolute target is followed. -/
def beneath : Jump := fun _ => none

/-- A target that begins with `/dev` is a path of this tree. -/
def intoDev : Jump := fun target =>
  if target = devRoot ∨
    devPrefix.isPrefixOf target then some (elements (target.drop devRoot.length))
  else none

/-- The links one lookup of the kernel follows. -/
def kernelLinks : Nat := 40

namespace Tree

variable (tree : Tree)

def part (here : List Path) (name : Path) : Part :=
  if tree.entry here ≠ some .dir then .fail Errno.notdir
  else if name = [] ∨ name = dot then .go here
  else if name = dotdot then if here = [] then .fail Errno.xdev else .go here.dropLast
  else
    match tree.entry (here ++ [name]) with
    | none => .fail Errno.noent
    | some (.link target) => .link target
    | some _ => .go (here ++ [name])

/-- The parts of a path up to the first link, which `follow` goes on with. -/
def walkParts (follow : Path → List Path → List Path → Lookup) (left : Nat) :
    List Path → List Path → Lookup
  | here, [] => .ok (here, left)
  | here, name :: rest =>
    match tree.part here name with
    | .fail errno => .error errno
    | .go next => walkParts follow left next rest
    | .link target => follow target here rest

/-- Where a link leads: where to go on, and with which parts. -/
def expand (jump : Jump) (here : List Path) (target : Path) :
    Except Errno (List Path × List Path) :=
  if target.head? = some '/' then
    match jump target with
    | none => .error Errno.xdev
    | some parts => .ok ([], parts)
  else .ok (here, elements target)

/-- A lookup from a directory, with the number of links it may follow. -/
def lookup (jump : Jump) : Nat → List Path → List Path → Lookup
  | 0 => tree.walkParts (fun _ _ _ => .error Errno.loop) 0
  | left + 1 => tree.walkParts (fun target here rest =>
      match expand jump here target with
      | .error errno => .error errno
      | .ok (next, parts) => lookup jump left next (parts ++ rest)) (left + 1)

/-- The name resolves to the device in fewer than `maxLinkHops` steps over links, none of which
leaves `/dev`. -/
def Resolves (name : Path) (id : DeviceId) : Prop :=
  ∃ parts here left, intoDev name = some parts ∧
    tree.lookup intoDev (maxLinkHops - 1) [] parts = .ok (here, left) ∧
      tree.entry here = some (.device id)

end Tree

/-- The uevents of all devices. Every device has a name. -/
structure Sysfs where
  uevent : DeviceId → Bytes
  named : ∀ id, ∃ name, devname (uevent id) = .ok name

/-- The daemon's view of a tree, with whatever a walk lists. -/
def Tree.dev (tree : Tree) (sysfs : Sysfs) (walk : Path → List Visit) : DevFs Unit (List Path) where
  root := devRoot
  openBeneath path s :=
    match tree.lookup beneath kernelLinks [] (elements path) with
    | .ok (here, _) => (.ok here, s)
    | .error errno => (.error ⟨"openat2 " ++ String.ofList path, errno⟩, s)
  stat here s :=
    match tree.entry here with
    | some (.device id) => (.ok (.device id), s)
    | some .dir => (.ok .dir, s)
    | _ => (.ok .other, s)
  resolved here s := (text true ("dev".toList :: here), s)
  readLink path s :=
    match tree.lookup beneath kernelLinks [] (elements path).dropLast with
    | .error errno => (.error ⟨"openat2 " ++ String.ofList path, errno⟩, s)
    | .ok (here, _) =>
      match tree.entry (here ++ [(elements path).getLast?.getD []]) with
      | some (.link target) => (.ok target, s)
      | _ => (.error ⟨"readlink " ++ String.ofList path, Errno.inval⟩, s)
  readUevent id s := (.ok (sysfs.uevent id), s)
  walk path s := (walk path, s)

/-! ## Lookups -/

namespace Tree

variable {tree : Tree} {jump : Jump} {left : Nat} {here next : List Path} {name : Path}
  {rest : List Path}

theorem lookup_nil : tree.lookup jump left here [] = .ok (here, left) := by
  cases left <;> rfl

theorem lookup_fail {errno : Errno} (h : tree.part here name = .fail errno) :
    tree.lookup jump left here (name :: rest) = .error errno := by
  cases left <;> rw [lookup, walkParts, h]

theorem lookup_go (h : tree.part here name = .go next) :
    tree.lookup jump left here (name :: rest) = tree.lookup jump left next rest := by
  cases left <;> rw [lookup, walkParts, h]

theorem lookup_link_zero {target : Path} (h : tree.part here name = .link target) :
    tree.lookup jump 0 here (name :: rest) = .error Errno.loop := by
  rw [lookup, walkParts, h]

theorem lookup_link {target : Path} (h : tree.part here name = .link target) :
    tree.lookup jump (left + 1) here (name :: rest) =
      match expand jump here target with
      | .error errno => .error errno
      | .ok (next, parts) => tree.lookup jump left next (parts ++ rest) := by
  rw [lookup, walkParts, h]

/-- The parts of a path one after another. -/
theorem lookup_append (front back : List Path) : tree.lookup jump left here (front ++ back) =
    match tree.lookup jump left here front with
    | .error errno => .error errno
    | .ok (next, left) => tree.lookup jump left next back := by
  induction left generalizing here front back with
  | zero =>
    induction front generalizing here with
    | nil => rw [List.nil_append, lookup_nil]
    | cons name front ih =>
      rw [List.cons_append]
      cases h : tree.part here name with
      | fail errno => rw [lookup_fail h, lookup_fail h]
      | go next => rw [lookup_go h, lookup_go h, ih]
      | link target => rw [lookup_link_zero h, lookup_link_zero h]
  | succ left ihleft =>
    induction front generalizing here with
    | nil => rw [List.nil_append, lookup_nil]
    | cons name front ih =>
      rw [List.cons_append]
      cases h : tree.part here name with
      | fail errno => rw [lookup_fail h, lookup_fail h]
      | go next => rw [lookup_go h, lookup_go h, ih]
      | link target =>
        rw [lookup_link h, lookup_link h]
        cases expand jump here target with
        | error errno => rfl
        | ok found =>
          dsimp only
          rw [← List.append_assoc, ihleft]

theorem lookup_append_ok {front back : List Path} {left' : Nat}
    (h : tree.lookup jump left here front = .ok (next, left')) :
    tree.lookup jump left here (front ++ back) = tree.lookup jump left' next back := by
  rw [lookup_append, h]

theorem lookup_append_error {front back : List Path} {errno : Errno}
    (h : tree.lookup jump left here front = .error errno) :
    tree.lookup jump left here (front ++ back) = .error errno := by
  rw [lookup_append, h]

theorem lookup_front_error {front back : List Path} {errno : Errno}
    (h : tree.lookup jump left here (front ++ [name]) = .error errno) :
    tree.lookup jump left here (front ++ name :: back) = .error errno := by
  rw [← lookup_append_error h, List.append_assoc, List.singleton_append]

theorem lookup_append_inv {front back : List Path} {found : List Path × Nat}
    (h : tree.lookup jump left here (front ++ back) = .ok found) :
    ∃ next left', tree.lookup jump left here front = .ok (next, left') ∧
      tree.lookup jump left' next back = .ok found := by
  rw [lookup_append] at h
  cases hfront : tree.lookup jump left here front with
  | error errno => rw [hfront] at h; cases h
  | ok found' =>
    rw [hfront] at h
    exact ⟨found'.1, found'.2, rfl, h⟩

/-- A lookup never gains links. -/
theorem lookup_left_le {left' : Nat} {parts : List Path}
    (h : tree.lookup jump left here parts = .ok (next, left')) : left' ≤ left := by
  induction left generalizing here parts with
  | zero =>
    induction parts generalizing here with
    | nil => rw [lookup_nil] at h; cases h; exact Nat.le_refl _
    | cons name parts ih =>
      cases hp : tree.part here name with
      | fail errno => rw [lookup_fail hp] at h; cases h
      | go next => rw [lookup_go hp] at h; exact ih h
      | link target => rw [lookup_link_zero hp] at h; cases h
  | succ left ihleft =>
    induction parts generalizing here with
    | nil => rw [lookup_nil] at h; cases h; exact Nat.le_refl _
    | cons name parts ih =>
      cases hp : tree.part here name with
      | fail errno => rw [lookup_fail hp] at h; cases h
      | go next => rw [lookup_go hp] at h; exact ih h
      | link target =>
        rw [lookup_link hp] at h
        cases hx : expand jump here target with
        | error errno => rw [hx] at h; cases h
        | ok found =>
          rw [hx] at h
          exact Nat.le_succ_of_le (ihleft h)

/-- A name that is looked up: it is missing, a link, or the next place. -/
theorem part_name (hdir : tree.entry here = some .dir) (hname : IsName name) : tree.part here name =
    match tree.entry (here ++ [name]) with
    | none => .fail Errno.noent
    | some (.link target) => .link target
    | some _ => .go (here ++ [name]) := by
  rw [part, if_neg (fun h => h hdir), if_neg (fun h => h.elim hname.nonempty hname.not_dot),
    if_neg hname.not_dotdot]

/-- Only a link refuses a name because it leaves the tree. -/
theorem lookup_name_xdev (hname : IsName name)
    (h : tree.lookup jump left here [name] = .error Errno.xdev) :
    ∃ target left', left = left' + 1 ∧ tree.part here name = .link target ∧
      tree.entry (here ++ [name]) = some (.link target) := by
  by_cases hdir : tree.entry here = some .dir
  swap
  · have hpart : tree.part here name = .fail Errno.notdir := by rw [part, if_pos hdir]
    rw [lookup_fail hpart] at h
    cases h
  have hpart := @part_name tree here name hdir hname
  cases hentry : tree.entry (here ++ [name]) with
  | none =>
    rw [hentry] at hpart
    rw [lookup_fail hpart] at h
    cases h
  | some entry =>
    rw [hentry] at hpart
    cases entry with
    | dir => rw [lookup_go hpart, lookup_nil] at h; cases h
    | device id => rw [lookup_go hpart, lookup_nil] at h; cases h
    | link target =>
      cases left with
      | zero => rw [lookup_link_zero hpart] at h; cases h
      | succ left => exact ⟨target, left, rfl, hpart, rfl⟩

/-- A part that is an absolute link is refused. -/
theorem lookup_absolute {front : List Path} {target : Path} {left' : Nat}
    (hfront : tree.lookup beneath left here front = .ok (next, left' + 1))
    (hpart : tree.part next name = .link target) (habsolute : target.head? = some '/') :
    tree.lookup beneath left here (front ++ [name]) = .error Errno.xdev := by
  rw [lookup_append_ok hfront, lookup_link hpart, expand, if_pos habsolute]
  rfl

/-- Where a name was looked up was a directory. -/
theorem part_link {target : Path} (hname : IsName name)
    (h : tree.entry (here ++ [name]) = some (.link target)) :
    tree.part here name = .link target := by
  have hdir : tree.entry here = some .dir := tree.parent here name (by rw [h]; exact nofun)
  rw [part_name hdir hname, h]

end Tree

/-! ## Names under `/dev` -/

/-- The text of a path below `/dev`. -/
def devText (names : List Path) : Path := text true ("dev".toList :: names)

private theorem isName_dev : IsName "dev".toList := ⟨by decide, by decide, by decide, by decide⟩

section Names

variable {names : List Path} {path : Path}

theorem dev_names (h : ∀ name ∈ names, IsName name) :
    ∀ name ∈ "dev".toList :: names, IsName name := by
  intro name hn
  rcases List.mem_cons.mp hn with rfl | hn
  · exact isName_dev
  · exact h name hn

theorem devText_eq (names : List Path) : devText names =
    devRoot ++ if names = [] then [] else '/' :: ['/'].intercalate names := by
  unfold devText
  cases names with
  | nil => decide
  | cons name names => simp [text, render, List.intercalate_cons_cons, devRoot]

theorem underDev_iff : underDev path = true ↔ ∃ names, (∀ name ∈ names, IsName name) ∧
    path = devText names := by
  unfold underDev isMountSource
  rw [Bool.and_eq_true, beq_iff_eq, Bool.or_eq_true, beq_iff_eq]
  constructor
  · rintro ⟨hclean, hsource⟩
    have hhead : path.head? = some '/' := by
      rcases hsource with rfl | hsource
      · rfl
      · obtain ⟨rest, rfl⟩ := List.isPrefixOf_iff_prefix.mp hsource
        rfl
    have hnames := normal_names hhead
    have htext : path = text true (normal path) := by rw [← clean_rooted hhead, hclean]
    have hne : normal path ≠ [] := by
      intro hnil
      rw [hnil] at htext
      rw [htext] at hsource
      revert hsource
      decide
    have helements : elements path = [] :: normal path := by
      conv_lhs => rw [htext]
      rw [text_of_ne_nil hne, render, if_pos rfl, elements_rooted,
        elements_intercalate (fun name hn => (hnames name hn).no_sep) hne]
    -- The first element of the text is `dev`.
    have hdev : ∃ names, elements path = [] :: "dev".toList :: names := by
      rcases hsource with rfl | hsource
      · exact ⟨[], by decide +kernel⟩
      · obtain ⟨rest, rfl⟩ := List.isPrefixOf_iff_prefix.mp hsource
        exact ⟨elements rest, elements_sep devRoot rest⟩
    obtain ⟨names, hdev⟩ := hdev
    rw [hdev] at helements
    obtain hnormal := (List.cons.inj helements).2
    refine ⟨names, fun name hn => hnames name ?_, ?_⟩
    · rw [← hnormal]
      exact List.mem_cons_of_mem _ hn
    · rw [htext, ← hnormal]
      rfl
  · rintro ⟨names, hnames, rfl⟩
    refine ⟨clean_text true (dev_names hnames), ?_⟩
    rw [devText_eq]
    by_cases hne : names = []
    · rw [if_pos hne]
      exact .inl (List.append_nil _)
    · rw [if_neg hne]
      exact .inr (List.isPrefixOf_iff_prefix.mpr ⟨['/'].intercalate names, rfl⟩)

theorem relToDev_devText (names : List Path) : relToDev (devText names) = text false names := by
  rw [devText_eq]
  by_cases hne : names = []
  · subst hne
    rfl
  · rw [if_neg hne, text_of_ne_nil hne, relToDev, if_neg, if_pos]
    · rfl
    · exact List.isPrefixOf_iff_prefix.mpr ⟨['/'].intercalate names, rfl⟩
    · intro h
      have := congrArg List.length h
      simp [devRoot] at this

theorem devText_injective {names names' : List Path} (h : ∀ name ∈ names, IsName name)
    (h' : ∀ name ∈ names', IsName name) (heq : devText names = devText names') :
    names = names' := by
  have := congrArg normal heq
  rw [devText, devText, normal_text true (dev_names h), normal_text true (dev_names h')] at this
  exact (List.cons.inj this).2

/-- An absolute target leads into `/dev` when its first element after cleaning is `dev`. -/
theorem underDev_clean {target : Path} (h : target.head? = some '/') (names : List Path) :
    normal target = "dev".toList :: names ↔ (∀ name ∈ names, IsName name) ∧
    clean target = devText names := by
  have hnames := normal_names h
  rw [clean_rooted h]
  constructor
  · intro hnormal
    rw [hnormal] at hnames ⊢
    exact ⟨fun name hn => hnames name (List.mem_cons_of_mem _ hn), rfl⟩
  · rintro ⟨hall, htext⟩
    have := congrArg normal htext
    rwa [devText, normal_text true hnames, normal_text true (dev_names hall)] at this

end Names

/-! ## What is followed -/

/-- The names lead to `here` in at most `rounds` rounds: over relative links alone, or after a part
that is reached so and is an absolute link into `/dev` was replaced by its cleaned target. -/
inductive Tree.Follows (tree : Tree) : Nat → List Path → List Path → Prop
  | direct {rounds left : Nat} {names here : List Path}
      (h : tree.lookup beneath kernelLinks [] names = .ok (here, left)) :
      Follows tree (rounds + 1) names here
  | hop {rounds left : Nat} {before rest names dir here : List Path} {name target : Path}
      (hbefore : tree.lookup beneath kernelLinks [] before = .ok (dir, left + 1))
      (hlink : tree.entry (dir ++ [name]) = some (.link target))
      (habsolute : target.head? = some '/') (hdev : normal target = "dev".toList :: names)
      (hrest : Follows tree rounds (names ++ rest) here) :
      Follows tree (rounds + 1) (before ++ name :: rest) here

section Dev

variable {tree : Tree} {sysfs : Sysfs} {walk : Path → List Visit}

theorem lookup_text {names : List Path} (h : ∀ name ∈ names, IsName name) :
    tree.lookup beneath kernelLinks [] (elements (text false names)) =
      tree.lookup beneath kernelLinks [] names := by
  by_cases hne : names = []
  · subst hne
    have hpart : tree.part [] dot = .go [] := by
      rw [Tree.part, if_neg (fun h => h tree.root), if_pos (.inr rfl)]
    rw [show elements (text false []) = [dot] by decide +kernel, Tree.lookup_go hpart]
  · rw [elements_text_false h hne]

theorem dev_open_ok {names here : List Path} {left : Nat} (hnames : ∀ name ∈ names, IsName name)
    (h : tree.lookup beneath kernelLinks [] names = .ok (here, left)) :
    (tree.dev sysfs walk).openBeneath (text false names) () = (.ok here, ()) := by
  rw [← lookup_text hnames] at h
  simp only [Tree.dev, h]

theorem dev_open_error {names : List Path} {errno : Errno} (hnames : ∀ name ∈ names, IsName name)
    (h : tree.lookup beneath kernelLinks [] names = .error errno) :
    ∃ error : SysError, error.errno = errno ∧
      (tree.dev sysfs walk).openBeneath (text false names) () = (.error error, ()) := by
  rw [← lookup_text hnames] at h
  simp only [Tree.dev, h]
  exact ⟨_, rfl, rfl⟩

theorem dev_readLink {before dir : List Path} {name target : Path} {left : Nat}
    (hbefore : ∀ name ∈ before, IsName name) (hname : IsName name)
    (h : tree.lookup beneath kernelLinks [] before = .ok (dir, left))
    (hlink : tree.entry (dir ++ [name]) = some (.link target)) :
    (tree.dev sysfs walk).readLink (text false (before ++ [name])) () = (.ok target, ()) := by
  have hall : ∀ other ∈ before ++ [name], IsName other := fun other ho =>
    (List.mem_append.mp ho).elim (hbefore other) fun h => List.mem_singleton.mp h ▸ hname
  have helements := elements_text_false hall (by simp)
  simp only [Tree.dev, helements, List.dropLast_concat, h, List.getLast?_concat,
    Option.getD_some, hlink]

/-- The part of a refused path that `escape_hop` finds, and what it makes of it. -/
theorem escapeFrom_tree {rel : Path} {before rest here : List Path} {left : Nat}
    (hnames : ∀ name ∈ before ++ rest, IsName name)
    (hbefore : tree.lookup beneath kernelLinks [] before = .ok (here, left))
    (hrest : tree.lookup beneath left here rest = .error Errno.xdev) :
    ∃ front name back dir left' target, before ++ rest = front ++ name :: back ∧
      tree.lookup beneath kernelLinks [] front = .ok (dir, left' + 1) ∧
      tree.lookup beneath kernelLinks [] (front ++ [name]) = .error Errno.xdev ∧
      tree.entry (dir ++ [name]) = some (.link target) ∧
      escapeFrom (tree.dev sysfs walk) rel before rest () =
        (.ok (if target.head? ≠ some '/' || !underDev (clean target) then .outside target
          else .retry (join (relToDev (clean target) :: back))), ()) := by
  induction rest generalizing before here left with
  | nil => rw [Tree.lookup_nil] at hrest; cases hrest
  | cons name rest ih =>
    have hname : IsName name := hnames name (by simp)
    have hfront : ∀ other ∈ before ++ [name], IsName other := fun other ho => hnames other (by
      rw [List.mem_append, List.mem_singleton] at ho
      rw [List.mem_append, List.mem_cons]
      exact ho.imp_right .inl)
    have htext : ['/'].intercalate (before ++ [name]) = text false (before ++ [name]) := by
      rw [text_of_ne_nil (by simp)]
      rfl
    rw [← List.singleton_append] at hrest
    cases hl : tree.lookup beneath left here [name] with
    | error errno =>
      have hx : errno = Errno.xdev := by
        rw [Tree.lookup_append_error hl] at hrest
        exact Except.error.inj hrest
      subst hx
      obtain ⟨target, left', rfl, hpart, hlink⟩ := Tree.lookup_name_xdev hname hl
      have hopen : tree.lookup beneath kernelLinks [] (before ++ [name]) = .error Errno.xdev := by
        rw [Tree.lookup_append_ok hbefore, hl]
      refine ⟨before, name, rest, here, left', target, rfl, hbefore, hopen, hlink, ?_⟩
      obtain ⟨error, herrno, hopened⟩ := @dev_open_error tree sysfs walk _ _ hfront hopen
      have hread := @dev_readLink tree sysfs walk _ _ _ _ _
        (fun other ho => hnames other (List.mem_append_left _ ho)) hname hbefore hlink
      rw [← htext] at hopened hread
      rw [escapeFrom]
      refine (Action.bind_of_ok (Action.attempt_eq hopened)).trans ?_
      dsimp only
      rw [if_neg (fun h => h herrno)]
      refine (Action.bind_of_ok hread).trans ?_
      split
      next => rfl
      next => rfl
    | ok found =>
      obtain ⟨next, left'⟩ := found
      have hopen : tree.lookup beneath kernelLinks [] (before ++ [name]) = .ok (next, left') := by
        rw [Tree.lookup_append_ok hbefore, hl]
      rw [Tree.lookup_append_ok hl] at hrest
      have hopened := @dev_open_ok tree sysfs walk _ _ _ hfront hopen
      rw [← htext] at hopened
      have hih := @ih (before ++ [name]) next left' (by simpa using hnames) hopen hrest
      rw [List.append_assoc, List.singleton_append] at hih
      rw [escapeFrom]
      refine hih.imp fun front => Exists.imp fun part => Exists.imp fun back =>
        Exists.imp fun dir =>
        Exists.imp fun left => Exists.imp fun target h => ⟨h.1, h.2.1, h.2.2.1, h.2.2.2.1, ?_⟩
      exact (Action.bind_of_ok (Action.attempt_eq hopened)).trans h.2.2.2.2

/-- The first part of a path that is refused is one. -/
theorem first_refused {front back front' back' : List Path} {name name' : Path}
    {errno errno' : Errno} {found found' : List Path × Nat}
    (heq : front ++ name :: back = front' ++ name' :: back')
    (hok : tree.lookup beneath kernelLinks [] front = .ok found)
    (herror : tree.lookup beneath kernelLinks [] (front ++ [name]) = .error errno)
    (hok' : tree.lookup beneath kernelLinks [] front' = .ok found')
    (herror' : tree.lookup beneath kernelLinks [] (front' ++ [name']) = .error errno') :
    front = front' ∧ name = name' ∧ back = back' := by
  rcases List.append_eq_append_iff.mp heq with ⟨more, rfl, hback⟩ | ⟨more, rfl, hback⟩
  · cases more with
    | nil =>
      obtain ⟨rfl, rfl⟩ := List.cons.inj hback
      exact ⟨(List.append_nil _).symm, rfl, rfl⟩
    | cons part more =>
      obtain ⟨rfl, -⟩ := List.cons.inj hback
      rw [Tree.lookup_front_error herror] at hok'
      cases hok'
  · cases more with
    | nil =>
      obtain ⟨rfl, rfl⟩ := List.cons.inj hback
      exact ⟨List.append_nil _, rfl, rfl⟩
    | cons part more =>
      obtain ⟨rfl, -⟩ := List.cons.inj hback
      rw [Tree.lookup_front_error herror'] at hok
      cases hok

theorem absolute_refused {before dir : List Path} {name target : Path} {left : Nat}
    (hname : IsName name)
    (hbefore : tree.lookup beneath kernelLinks [] before = .ok (dir, left + 1))
    (hlink : tree.entry (dir ++ [name]) = some (.link target))
    (habsolute : target.head? = some '/') :
    tree.lookup beneath kernelLinks [] (before ++ [name]) = .error Errno.xdev :=
  Tree.lookup_absolute hbefore (Tree.part_link hname hlink) habsolute

/-- A refused path is followed by its first refused part. -/
theorem Tree.Follows.refused_inv {rounds left : Nat} {front back dir here : List Path}
    {name target : Path} (hnames : ∀ part ∈ front ++ name :: back, IsName part)
    (hfront : tree.lookup beneath kernelLinks [] front = .ok (dir, left))
    (hrefused : tree.lookup beneath kernelLinks [] (front ++ [name]) = .error Errno.xdev)
    (hlink : tree.entry (dir ++ [name]) = some (.link target))
    (h : tree.Follows (rounds + 1) (front ++ name :: back) here) :
    target.head? = some '/' ∧
      ∃ names, normal target = "dev".toList :: names ∧
      tree.Follows rounds (names ++ back) here := by
  generalize hall : front ++ name :: back = all at h hnames
  cases h with
  | direct h =>
    rw [← hall, Tree.lookup_front_error hrefused] at h
    cases h
  | hop hbefore hlink' habsolute hdev hrest =>
    have hx := absolute_refused (hnames _ (by simp)) hbefore hlink' habsolute
    obtain ⟨rfl, rfl, rfl⟩ := first_refused hall hfront hrefused hbefore hx
    rw [hfront] at hbefore
    cases hbefore
    rw [hlink] at hlink'
    cases hlink'
    exact ⟨habsolute, _, hdev, hrest⟩

/-- **What `open_candidate` opens.** -/
theorem openFrom_iff {aliasPath : Path} {rounds : Nat} {names here : List Path}
    (hnames : ∀ name ∈ names, IsName name) :
    openFrom (tree.dev sysfs walk) aliasPath rounds (text false names) () = (.ok (.node here), ()) ↔
      tree.Follows rounds names here := by
  induction rounds generalizing names with
  | zero => exact iff_of_false nofun nofun
  | succ rounds ih =>
    rw [openFrom]
    cases hl : tree.lookup beneath kernelLinks [] names with
    | ok found =>
      obtain ⟨next, left⟩ := found
      rw [Action.bind_of_ok (Action.attempt_eq (dev_open_ok hnames hl))]
      constructor
      · intro h
        cases h
        exact .direct hl
      · intro h
        cases h with
        | direct h => rw [hl] at h; cases h; rfl
        | hop hbefore hlink habsolute hdev hrest =>
          have hx := absolute_refused (hnames _ (by simp)) hbefore hlink habsolute
          rw [Tree.lookup_front_error hx] at hl
          cases hl
    | error errno =>
      obtain ⟨error, herrno, hopen⟩ := @dev_open_error tree sysfs walk _ _ hnames hl
      rw [Action.bind_of_ok (Action.attempt_eq hopen)]
      dsimp only
      -- A path that can be followed is opened or refused.
      have hrefused : tree.Follows (rounds + 1) names here → errno = Errno.xdev := by
        intro h
        cases h with
        | direct h => rw [hl] at h; cases h
        | hop hbefore hlink habsolute hdev hrest =>
          have hx := absolute_refused (hnames _ (by simp)) hbefore hlink habsolute
          rw [Tree.lookup_front_error hx] at hl
          exact (Except.error.inj hl).symm
      by_cases hx : errno = Errno.xdev
      swap
      · refine iff_of_false (fun h => ?_) fun h => hx (hrefused h)
        split at h
        next => cases h
        next =>
          rw [if_pos (by rwa [herrno])] at h
          cases h
      subst hx
      rw [if_neg (by rw [herrno]; decide), if_neg (fun h => h herrno)]
      have hne : names ≠ [] := by
        rintro rfl
        rw [Tree.lookup_nil] at hl
        cases hl
      obtain ⟨front, name, back, dir, left, target, hsplit, hfront, hname, hlink, hescape⟩ :=
        @escapeFrom_tree tree sysfs walk (text false names) [] names [] kernelLinks hnames
          Tree.lookup_nil hl
      rw [List.nil_append] at hsplit
      have hparts : escapeHop (tree.dev sysfs walk) (text false names) () =
          escapeFrom (tree.dev sysfs walk) (text false names) [] names () :=
        congrArg (fun parts => escapeFrom (tree.dev sysfs walk) (text false names) [] parts ())
          (elements_text_false hnames hne)
      rw [Action.bind_of_ok (Action.mapErr_of_ok (hparts.trans hescape))]
      subst hsplit
      by_cases hinto : target.head? = some '/' ∧ underDev (clean target) = true
      · obtain ⟨habsolute, hunder⟩ := hinto
        obtain ⟨names, hall, hclean⟩ := underDev_iff.mp hunder
        have hnormal := (underDev_clean habsolute names).mpr ⟨hall, hclean⟩
        have hback : ∀ part ∈ back, IsName part := fun part hp => hnames part (by simp [hp])
        rw [if_neg (by simp [habsolute, hunder]), hclean, relToDev_devText, join_text hall hback]
        refine (ih fun part hp => (List.mem_append.mp hp).elim (hall part) (hback part)).trans
          ⟨fun h => ?_,
          fun h => ?_⟩
        · exact .hop hfront hlink habsolute hnormal h
        · obtain ⟨-, names', hnormal', h⟩ := h.refused_inv hnames hfront hname hlink
          rw [hnormal] at hnormal'
          cases hnormal'
          exact h
      · refine iff_of_false (fun h => ?_) fun h => hinto ?_
        · rw [if_pos (by simpa [imp_iff_not_or] using hinto)] at h
          cases h
        · obtain ⟨habsolute, names', hnormal', -⟩ := h.refused_inv hnames hfront hname hlink
          exact ⟨habsolute,
            underDev_iff.mpr ⟨names', (underDev_clean habsolute names').mp hnormal'⟩⟩

end Dev

end Processor
end Sda
