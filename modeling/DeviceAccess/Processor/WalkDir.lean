import Mathlib.Data.List.Sort
import DeviceAccess.Processor.Devfs

/-!
# Walking a directory (`walk_dir`, `walk_entry`, `read_dir_sorted` of `src/processor/devfs.rs`)

`FileTree` is a directory as its listings show it: what a listing does not show to be a directory is
a leaf, and a listing can fail as a whole or after some entries. `walkDir` walks it with a visitor
that can end the walk at any visit.

The visits are those of the tree's names in lexical order, each directory before its contents
(`walkDir_eq`, `order_sorted`): every listed name once, and a directory whose listing failed a
second time, with the error. The walk makes them in turn until the visitor ends it.
-/

namespace Sda
namespace Processor

open Lexpath

/-- What stands at a path. -/
inductive FileTree where
  /-- Nothing that is listed. -/
  | leaf
  /-- A directory that cannot be opened. -/
  | unlisted (errno : Errno)
  /-- A directory: the entries in the order they are read, and what stopped the listing after them.
  -/
  | dir (entries : List (Path × FileTree)) (failure : Option Errno)

namespace FileTree

def isDir : FileTree → Bool
  | leaf => false
  | unlisted _ => true
  | dir _ _ => true

/-- What stands below a path of names. -/
inductive At : FileTree → List Path → FileTree → Prop
  | here {tree : FileTree} : At tree [] tree
  | step {entries : List (Path × FileTree)} {failure : Option Errno} {name : Path}
    {names : List Path}
    {child tree : FileTree} (hentry : (name, child) ∈ entries) (hrest : At child names tree) :
    At (dir entries failure) (name :: names) tree

/-- The entries of a directory are names, and no two the same. -/
def WellFormed (tree : FileTree) : Prop :=
  ∀ names entries failure, tree.At names (dir entries failure) →
    (entries.map (·.1)).Nodup ∧ ∀ entry ∈ entries, IsName entry.1

/-- The errors of the listing at `path`. -/
def listingErrors (path : Path) : FileTree → List SysError
  | leaf => []
  | unlisted errno => [⟨"open " ++ String.ofList path, errno⟩]
  | dir _ failure => failure.toList.map fun errno => ⟨"readdirent " ++ String.ofList path, errno⟩

theorem induct {P : FileTree → Prop} (leaf : P .leaf) (unlisted : ∀ errno, P (.unlisted errno))
    (dir : ∀ entries failure, (∀ entry ∈ entries, P entry.2) → P (.dir entries failure)) :
    ∀ tree, P tree
  | .leaf => leaf
  | .unlisted errno => unlisted errno
  | .dir entries failure => dir entries failure (each entries)
where
  each : ∀ entries : List (Path × FileTree), ∀ entry ∈ entries, P entry.2
    | [], _, h => nomatch h
    | (name, tree) :: rest, entry, h => by
      rcases List.mem_cons.mp h with rfl | h
      · exact induct leaf unlisted dir tree
      · exact each rest entry h

end FileTree

/-! ## The order of names -/

/-- The order of strings: by code points, which is the order of their bytes. -/
def NameBefore (a b : Path) : Prop := List.Lex (· < ·) a b

instance : DecidableRel NameBefore := fun a b => inferInstanceAs (Decidable (List.Lex (· < ·) a b))

/-- The entries of `read_dir_sorted`. -/
def sortByName {α : Type} (entries : List (Path × α)) : List (Path × α) :=
  entries.insertionSort fun a b => ¬ NameBefore b.1 a.1

section Sorted

variable {α β : Type} {entries : List (Path × α)}

theorem NameBefore.of_not {a b : Path} (h : ¬ NameBefore b a) (hne : a ≠ b) : NameBefore a b := by
  by_contra h'
  exact hne (List.le_antisymm h h')

theorem mem_sortByName {entry : Path × α} : entry ∈ sortByName entries ↔ entry ∈ entries :=
  List.mem_insertionSort _

theorem sortByName_map (f : Path × α → β) :
    sortByName (entries.map fun entry => (entry.1, f entry)) =
      (sortByName entries).map fun entry => (entry.1, f entry) :=
  (List.map_insertionSort (fun a b : Path × α => ¬ NameBefore b.1 a.1)
    (fun a b : Path × β => ¬ NameBefore b.1 a.1) (fun entry => (entry.1, f entry)) entries
    fun _ _ _ _ => Iff.rfl).symm

theorem sortByName_sorted (h : (entries.map (·.1)).Nodup) :
    (sortByName entries).Pairwise fun a b => NameBefore a.1 b.1 := by
  have : Std.Total fun a b : Path × α => ¬ NameBefore b.1 a.1 :=
    ⟨fun a b => List.le_total a.1 b.1⟩
  have : IsTrans (Path × α) fun a b => ¬ NameBefore b.1 a.1 :=
    ⟨fun a b c hab hbc => @List.le_trans Char _ _ _ _ a.1 b.1 c.1 hab hbc⟩
  have hsorted := List.pairwise_insertionSort (fun a b : Path × α => ¬ NameBefore b.1 a.1) entries
  have hnodup : ((sortByName entries).map (·.1)).Nodup :=
    ((List.perm_insertionSort _ entries).map _).nodup_iff.mpr h
  exact hsorted.imp₂ (fun _ _ hle hne => NameBefore.of_not hle hne) (List.pairwise_map.mp hnodup)

end Sorted

/-! ## The walk -/

section Walk

variable {τ : Type}

/-- One after the other, until one ends the walk. -/
def inTurn : List (τ → τ × Bool) → τ → τ × Bool
  | [], t => (t, true)
  | walk :: walks, t =>
    match walk t with
    | (t, true) => inTurn walks t
    | (t, false) => (t, false)

variable (visit : Visit → τ → τ × Bool)

mutual
/-- `walk_entry`: the state after it, and whether the walk goes on. -/
def walkEntry (path : Path) : FileTree → τ → τ × Bool
  | .leaf => visit ⟨path, false, none⟩
  | .unlisted errno =>
    inTurn [visit ⟨path, true, none⟩,
      visit ⟨path, true, some ⟨"open " ++ String.ofList path, errno⟩⟩]
  | .dir entries failure =>
    inTurn (visit ⟨path, true, none⟩ ::
      (failure.toList.map fun errno =>
        visit ⟨path, true, some ⟨"readdirent " ++ String.ofList path, errno⟩⟩) ++
      (sortByName (walkEach path entries)).map (·.2))

/-- The walks of the entries of the directory at `path`. -/
def walkEach (path : Path) : List (Path × FileTree) → List (Path × (τ → τ × Bool))
  | [] => []
  | (name, tree) :: rest => (name, walkEntry (join [path, name]) tree) :: walkEach path rest
end

/-- `walk_dir`, with what stands at `root`. -/
def walkDir (root : Path) : Except Errno FileTree → τ → τ
  | .error errno, t => (visit ⟨root, false, some ⟨"lstat " ++ String.ofList root, errno⟩⟩ t).1
  | .ok tree, t => (walkEntry visit root tree t).1

end Walk

/-! ## The visits -/

namespace FileTree

mutual
/-- The names of a tree with what stands there, in lexical order. -/
def order : FileTree → List (List Path × FileTree)
  | leaf => [([], leaf)]
  | unlisted errno => [([], unlisted errno)]
  | dir entries failure =>
    ([], dir entries failure) ::
      (sortByName (orderEach entries)).flatMap fun entry => entry.2.map fun below =>
        (entry.1 :: below.1, below.2)

def orderEach : List (Path × FileTree) → List (Path × List (List Path × FileTree))
  | [] => []
  | (name, tree) :: rest => (name, order tree) :: orderEach rest
end

end FileTree

/-- The path of names below a directory. -/
def pathBelow (path : Path) (names : List Path) : Path :=
  names.foldl (fun path name => join [path, name]) path

/-- The visits of one name. -/
def visitsAt (root : Path) (item : List Path × FileTree) : List Visit :=
  ⟨pathBelow root item.1, item.2.isDir, none⟩ ::
    (item.2.listingErrors (pathBelow root item.1)).map fun error =>
      ⟨pathBelow root item.1, true, some error⟩

/-- The visits of a walk that is not ended. -/
def treeVisits (root : Path) (tree : FileTree) : List Visit := tree.order.flatMap (visitsAt root)

/-- The visits of `walk_dir`. -/
def rootVisits (root : Path) : Except Errno FileTree → List Visit
  | .error errno => [⟨root, false, some ⟨"lstat " ++ String.ofList root, errno⟩⟩]
  | .ok tree => treeVisits root tree

private theorem orderEach_eq (entries : List (Path × FileTree)) :
    FileTree.orderEach entries = entries.map fun entry => (entry.1, entry.2.order) := by
  induction entries with
  | nil => rfl
  | cons entry rest ih => rw [FileTree.orderEach, ih]; rfl

theorem order_dir (entries : List (Path × FileTree)) (failure : Option Errno) :
    (FileTree.dir entries failure).order = ([], .dir entries failure) ::
      (sortByName entries).flatMap fun entry =>
        entry.2.order.map fun below => (entry.1 :: below.1, below.2) := by
  rw [FileTree.order, orderEach_eq, sortByName_map, List.flatMap_map]

theorem treeVisits_dir (path : Path) (entries : List (Path × FileTree)) (failure : Option Errno) :
    treeVisits path (.dir entries failure) = visitsAt path ([], .dir entries failure) ++
      (sortByName entries).flatMap fun entry => treeVisits (join [path, entry.1]) entry.2 := by
  rw [treeVisits, order_dir, List.flatMap_cons, List.flatMap_assoc]
  congr 1
  refine List.flatMap_congr fun entry _ => ?_
  rw [List.flatMap_map]
  rfl

section Walk

variable {τ : Type} {visit : Visit → τ → τ × Bool}

theorem inTurn_append (walks more : List (τ → τ × Bool)) (t : τ) : inTurn (walks ++ more) t =
    match inTurn walks t with
    | (t, true) => inTurn more t
    | (t, false) => (t, false) := by
  induction walks generalizing t with
  | nil => rfl
  | cons walk walks ih =>
    rw [List.cons_append, inTurn, inTurn]
    rcases walk t with ⟨t', _ | _⟩
    · rfl
    · exact ih t'

theorem inTurn_flatMap {α : Type} (items : List α) (walks : α → List (τ → τ × Bool)) :
    inTurn (items.map fun item => inTurn (walks item)) = inTurn (items.flatMap walks) := by
  funext t
  induction items generalizing t with
  | nil => rfl
  | cons item items ih =>
    rw [List.map_cons, inTurn, List.flatMap_cons, inTurn_append]
    rcases inTurn (walks item) t with ⟨t', _ | _⟩
    · rfl
    · exact ih t'

theorem inTurn_singleton (walk : τ → τ × Bool) : inTurn [walk] = walk := by
  funext t
  rw [inTurn]
  rcases h : walk t with ⟨t', _ | _⟩
  · rfl
  · rfl

private theorem walkEach_eq (path : Path) (entries : List (Path × FileTree)) :
    walkEach visit path entries =
      entries.map fun entry => (entry.1, walkEntry visit (join [path, entry.1]) entry.2) := by
  induction entries with
  | nil => rfl
  | cons entry rest ih => rw [walkEach, ih]; rfl

theorem walkEntry_eq (path : Path) (tree : FileTree) :
    walkEntry visit path tree = inTurn ((treeVisits path tree).map visit) := by
  induction tree using FileTree.induct generalizing path with
  | leaf =>
    rw [walkEntry]
    exact (inTurn_singleton _).symm
  | unlisted errno =>
    rw [walkEntry]
    rfl
  | dir entries failure ih =>
    have hbelow : (sortByName (walkEach visit path entries)).map (·.2) =
        (sortByName entries).map fun entry =>
          inTurn ((treeVisits (join [path, entry.1]) entry.2).map visit) := by
      rw [walkEach_eq, sortByName_map, List.map_map]
      exact List.map_congr_left fun entry hentry => ih entry (mem_sortByName.mp hentry) _
    rw [walkEntry, hbelow, treeVisits_dir, List.map_append, List.map_flatMap]
    funext t
    rw [inTurn_append, inTurn_append, inTurn_flatMap]
    have hown : (visitsAt path ([], .dir entries failure)).map visit = visit ⟨path, true, none⟩ ::
        failure.toList.map fun errno =>
          visit ⟨path, true, some ⟨"readdirent " ++ String.ofList path, errno⟩⟩ := by
      rw [visitsAt, List.map_cons, FileTree.listingErrors, List.map_map, List.map_map]
      rfl
    rw [hown]

/-- The walk makes its visits in turn. -/
theorem walkDir_eq (root : Path) (tree : Except Errno FileTree) (t : τ) :
    walkDir visit root tree t = (inTurn ((rootVisits root tree).map visit) t).1 := by
  cases tree with
  | error errno =>
    rw [rootVisits, List.map_singleton, inTurn_singleton]
    rfl
  | ok tree => rw [walkDir, walkEntry_eq]; rfl

end Walk

/-! ## Every name once, in order -/

section Order

variable {tree : FileTree}

theorem FileTree.WellFormed.child {entries : List (Path × FileTree)} {failure : Option Errno}
    {name : Path} {child : FileTree} (h : (FileTree.dir entries failure).WellFormed)
    (hentry : (name, child) ∈ entries) :
    child.WellFormed := fun names entries' failure' hat =>
  h (name :: names) entries' failure' (.step hentry hat)

/-- Below a well-formed directory every path is made of names. -/
theorem FileTree.At.isName {names : List Path} {sub : FileTree} (h : tree.At names sub)
    (hwf : tree.WellFormed) :
    ∀ name ∈ names, IsName name := by
  induction h with
  | here => nofun
  | step hentry hrest ih =>
    intro name hname
    rcases List.mem_cons.mp hname with rfl | hname
    · exact (hwf [] _ _ .here).2 _ hentry
    · exact ih (hwf.child hentry) name hname

theorem mem_order {names : List Path} {sub : FileTree} :
    (names, sub) ∈ tree.order ↔ tree.At names sub := by
  induction tree using FileTree.induct generalizing names with
  | leaf =>
    rw [FileTree.order, List.mem_singleton]
    exact ⟨fun h => by cases h; exact .here, fun h => by cases h; rfl⟩
  | unlisted errno =>
    rw [FileTree.order, List.mem_singleton]
    exact ⟨fun h => by cases h; exact .here, fun h => by cases h; rfl⟩
  | dir entries failure ih =>
    rw [order_dir, List.mem_cons, List.mem_flatMap]
    constructor
    · rintro (h | ⟨⟨name, child⟩, hentry, hbelow⟩)
      · cases h
        exact .here
      · obtain ⟨⟨names', sub'⟩, hmem, heq⟩ := List.mem_map.mp hbelow
        cases heq
        have hentry := mem_sortByName.mp hentry
        exact .step hentry ((ih _ hentry).mp hmem)
    · intro h
      cases h with
      | here => exact .inl rfl
      | @step _ _ name names child _ hentry hrest =>
        refine .inr ⟨(name, child), mem_sortByName.mpr hentry, ?_⟩
        exact List.mem_map.mpr ⟨(names, sub), (ih _ hentry).mpr hrest, rfl⟩

/-- The names are in lexical order, each directory before its contents; so no name comes twice. -/
theorem order_sorted (hwf : tree.WellFormed) :
    tree.order.Pairwise fun a b => List.Lex NameBefore a.1 b.1 := by
  induction tree using FileTree.induct with
  | leaf => exact List.pairwise_singleton _ _
  | unlisted errno => exact List.pairwise_singleton _ _
  | dir entries failure ih =>
    rw [order_dir, List.pairwise_cons, List.pairwise_flatMap]
    refine ⟨fun item hitem => ?_, fun entry hentry => ?_, ?_⟩
    · obtain ⟨entry, -, hbelow⟩ := List.mem_flatMap.mp hitem
      obtain ⟨below, -, rfl⟩ := List.mem_map.mp hbelow
      exact .nil
    · have hentry := mem_sortByName.mp hentry
      rw [List.pairwise_map]
      exact (ih entry hentry (hwf.child hentry)).imp fun h => .cons h
    · refine (sortByName_sorted (hwf [] _ _ .here).1).imp fun hbefore a ha b hb => ?_
      obtain ⟨below, -, rfl⟩ := List.mem_map.mp ha
      obtain ⟨below', -, rfl⟩ := List.mem_map.mp hb
      exact .rel hbefore

theorem normal_pathBelow {names : List Path} (h : ∀ name ∈ names, IsName name) (root : Path) :
    normal (pathBelow root names) = normal root ++ names := by
  induction names generalizing root with
  | nil => exact (List.append_nil _).symm
  | cons name names ih =>
    have hrest := ih (fun other ho => h other (List.mem_cons_of_mem _ ho)) (join [root, name])
    rw [normal_join_name (h name List.mem_cons_self), List.append_assoc] at hrest
    exact hrest

/-- No two names of a tree have the same path. -/
theorem order_paths_nodup (hwf : tree.WellFormed) (root : Path) :
    (tree.order.map fun item => pathBelow root item.1).Nodup := by
  rw [List.Nodup, List.pairwise_map]
  refine List.Pairwise.imp_of_mem (fun {a b} ha hb hlex heq => ?_) (order_sorted hwf)
  have hnormal := congrArg normal heq
  rw [normal_pathBelow ((mem_order.mp ha).isName hwf),
    normal_pathBelow ((mem_order.mp hb).isName hwf), List.append_cancel_left_eq] at hnormal
  rw [hnormal] at hlex
  exact List.lex_irrefl (fun name => List.lt_irrefl name) b.1 hlex

/-- The visits without an error are one for each name. -/
theorem visitsAt_clean (root : Path) (items : List (List Path × FileTree)) :
    (items.flatMap (visitsAt root)).filter (·.error.isNone) =
      items.map fun item => ⟨pathBelow root item.1, item.2.isDir, none⟩ := by
  induction items with
  | nil => rfl
  | cons item items ih =>
    have herrors : ((item.2.listingErrors (pathBelow root item.1)).map fun error =>
        (⟨pathBelow root item.1, true, some error⟩ : Visit)).filter (·.error.isNone) = [] := by
      rw [List.filter_eq_nil_iff]
      intro visit hvisit
      obtain ⟨error, -, rfl⟩ := List.mem_map.mp hvisit
      exact Bool.false_ne_true
    rw [List.flatMap_cons, List.filter_append, ih, visitsAt, List.filter_cons_of_pos rfl, herrors]
    rfl

/-- A tree is seen in order: the root first; every listed name, in lexical order and each directory
before its contents, with a second visit for the error of a listing that failed; and no name twice
without an error. -/
structure SeenInOrder (root : Path) (tree : FileTree) (visits : List Visit) : Prop where
  first : visits.head? = some ⟨root, tree.isDir, none⟩
  order : ∃ items :
    List (List Path × FileTree), (items.Pairwise fun a b => List.Lex NameBefore a.1 b.1) ∧
    (∀ names sub, (names, sub) ∈ items ↔ tree.At names sub) ∧ visits = items.flatMap (visitsAt root)
  once : ((visits.filter (·.error.isNone)).map (·.path)).Nodup

theorem treeVisits_inOrder (hwf : tree.WellFormed) (root : Path) :
    SeenInOrder root tree (treeVisits root tree) where
  first := by
    cases tree with
    | leaf => rfl
    | unlisted errno => rfl
    | dir entries failure =>
      rw [treeVisits_dir]
      rfl
  order := ⟨tree.order, order_sorted hwf, fun _ _ => mem_order, rfl⟩
  once := by
    rw [treeVisits, visitsAt_clean, List.map_map]
    exact order_paths_nodup hwf root

/-- A listing that fails after its first entry. -/
example :
    (treeVisits "/dev".toList
      (.dir [("b".toList, .leaf), ("a".toList, .dir [("c".toList, .leaf)] (some 5))]
    none)).map (fun visit => (visit.path, visit.isDir, visit.error.isSome)) =
    [("/dev".toList, true, false), ("/dev/a".toList, true, false), ("/dev/a".toList, true, true),
      ("/dev/a/c".toList, false, false), ("/dev/b".toList, false, false)] := by
  decide +kernel

end Order

end Processor
end Sda
