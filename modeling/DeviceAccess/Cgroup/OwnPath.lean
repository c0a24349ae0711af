import DeviceAccess.Cgroup.Proc

/-!
# Which directory the cgroup path names

The path `hostCgroupPath` gives is made of the cgroup on the selected line of the cgroup file and of
the mount on the selected line of mountinfo, by text: the mount's root is taken off the front of the
cgroup's path when that starts with it, and put in front of it again.

* For a cgroup that is the mount's root or below it, that is the cgroup itself under the mount
  point.
* Whether the files are accepted does not depend on the cgroup's path. A cgroup that is not below
  the mount's root is put below it, and a `..` is resolved like in any path, so the path can name
  another cgroup (`other_cgroup_named`).
-/

namespace Sda
namespace Cgroup

open Lexpath

/-! ## The selected lines -/

/-- The first line with the property; the lines before it can be read and do not have it. -/
def First (P : Path → Prop) (lines : List Line) (line : Path) : Prop :=
  ∃ before after, lines = before ++ .ok line :: after ∧ P line ∧
    ∀ earlier ∈ before, ∃ text, earlier = .ok text ∧ ¬ P text

theorem First.head {P : Path → Prop} {line : Path} (h : P line) (lines : List Line) :
    First P (.ok line :: lines) line :=
  ⟨[], lines, rfl, h, nofun⟩

theorem First.cons {P : Path → Prop} {first line : Path} {lines : List Line} (hno : ¬ P first)
    (h : First P lines line) : First P (.ok first :: lines) line := by
  obtain ⟨before, after, rfl, hline, hbefore⟩ := h
  refine ⟨.ok first :: before, after, rfl, hline, fun earlier hm => ?_⟩
  rcases List.mem_cons.mp hm with rfl | hm
  · exact ⟨first, rfl, hno⟩
  · exact hbefore earlier hm

theorem First.eq_of_single {P : Path → Prop} {line found : Path} (h : First P [.ok line] found) :
    found = line := by
  obtain ⟨before, after, heq, -, -⟩ := h
  cases before with
  | nil =>
    cases heq
    rfl
  | cons earlier before => simp at heq

/-- The controllers field of the hierarchy's line in the cgroup file. -/
def CgroupVersion.controllers : CgroupVersion → Path
  | .v1 => devices
  | .v2 => []

/-- The hierarchy's mounts. -/
def CgroupVersion.selects : CgroupVersion → List Path → Bool
  | .v1 => selectsV1
  | .v2 => selectsV2

/-- The error when no mount is selected. -/
def CgroupVersion.noMount : CgroupVersion → ParseError
  | .v1 => .noCgroupV1Fs
  | .v2 => .noCgroup2Fs

/-- The error when no line is about the controllers. -/
def CgroupVersion.noEntry : CgroupVersion → ParseError
  | .v1 => .noDevicesCgroup
  | .v2 => .noCgroupV2Entry

/-- The line of the cgroup file is about the controllers. -/
def About (controllers : Path) (line : Path) : Prop :=
  ∃ hierarchy path, splitn ':' 3 line = [hierarchy, controllers, path]

/-- The cgroup file puts the process into `own`. -/
def OwnCgroup (version : CgroupVersion) (lines : List Line) (own : Path) : Prop :=
  ∃ line hierarchy, First (About version.controllers) lines line ∧
    splitn ':' 3 line = [hierarchy, version.controllers, own]

/-- The mountinfo file has the hierarchy's part below `mount` at `point`. -/
def OwnMount (version : CgroupVersion) (lines : List Line) (mount point : Path) : Prop :=
  ∃ line, First (fun line => version.selects (line.splitOn ' ') = true) lines line ∧
    5 ≤ (line.splitOn ' ').length ∧ (line.splitOn ' ').getD 3 [] = mount ∧
    (line.splitOn ' ').getD 4 [] = point

theorem scanProcCgroupFrom_ok {version : CgroupVersion} {missing : ParseError}
    {mountPrefix root : Path} {lines : List Line}
    (h : scanProcCgroupFrom version.controllers missing mountPrefix lines = .ok root) :
    ∃ own, OwnCgroup version lines own ∧ root = stripRoot mountPrefix own := by
  induction lines with
  | nil => cases h
  | cons line lines ih =>
    cases line with
    | error e => cases h
    | ok line =>
      simp only [scanProcCgroupFrom, bind, Except.bind] at h
      split at h
      · rename_i hierarchy controllers path hline
        split at h
        · rename_i hne
          obtain ⟨own, ⟨line', hierarchy', hfirst, hown⟩, rfl⟩ := ih h
          refine ⟨own, ⟨line', hierarchy', hfirst.cons ?_, hown⟩, rfl⟩
          rintro ⟨hierarchy'', path'', hother⟩
          rw [hline] at hother
          cases hother
          exact hne rfl
        · rename_i heq
          cases h
          rw [ne_eq, not_not] at heq
          subst heq
          exact ⟨path, ⟨line, hierarchy, .head ⟨hierarchy, path, hline⟩ lines, hline⟩, rfl⟩
      · cases h

theorem scanMountInfoFrom_ok {version : CgroupVersion} {missing : ParseError} {mount point : Path}
    {lines : List Line} (h : scanMountInfoFrom version.selects missing lines = .ok (mount, point)) :
    OwnMount version lines mount point := by
  induction lines with
  | nil => cases h
  | cons line lines ih =>
    cases line with
    | error e => cases h
    | ok line =>
      simp only [scanMountInfoFrom, bind, Except.bind] at h
      split at h
      · cases h
      · rename_i hlength
        split at h
        · rename_i hno
          obtain ⟨line', hfirst, hmount⟩ := ih h
          exact ⟨line', hfirst.cons (by simpa using hno), hmount⟩
        · rename_i hyes
          split at h
          · cases h
          · cases h
            exact ⟨line, .head (by simpa using hyes) lines, by omega, rfl, rfl⟩

/-- The two hierarchies are read the same way. -/
theorem parseProcCgroup_eq (cgroup mountinfo : Bytes) :
    parseProcCgroup cgroup mountinfo =
      (scanCgroupVersion cgroup .cgroup).bind fun version =>
      (scanMountInfoFrom version.selects version.noMount (scanLines mountinfo .mountinfo)).bind
        fun found =>
      (scanProcCgroupFrom version.controllers version.noEntry found.1
        (scanLines cgroup .cgroup)).bind fun root =>
      .ok ⟨version, found.1, found.2, root⟩ := by
  unfold parseProcCgroup
  cases scanCgroupVersion cgroup .cgroup with
  | error e => rfl
  | ok version => cases version <;> rfl

theorem parseProcCgroup_eq_ok {cgroup mountinfo : Bytes} {proc : ProcCgroup} :
    parseProcCgroup cgroup mountinfo = .ok proc ↔
      scanCgroupVersion cgroup .cgroup = .ok proc.version ∧
      scanMountInfoFrom proc.version.selects proc.version.noMount (scanLines mountinfo .mountinfo) =
        .ok (proc.mountPrefix, proc.mountPoint) ∧
      scanProcCgroupFrom proc.version.controllers proc.version.noEntry proc.mountPrefix
        (scanLines cgroup .cgroup) = .ok proc.root := by
  rw [parseProcCgroup_eq]
  constructor
  · intro h
    cases hversion : scanCgroupVersion cgroup .cgroup with
    | error e => rw [hversion] at h; cases h
    | ok version =>
      rw [hversion, Except.bind] at h
      cases hmount : scanMountInfoFrom version.selects version.noMount
          (scanLines mountinfo .mountinfo) with
      | error e => rw [hmount] at h; cases h
      | ok found =>
        rw [hmount, Except.bind] at h
        cases hroot : scanProcCgroupFrom version.controllers version.noEntry found.1
            (scanLines cgroup .cgroup) with
        | error e => rw [hroot] at h; cases h
        | ok root =>
          rw [hroot] at h
          cases h
          exact ⟨rfl, hmount, hroot⟩
  · rintro ⟨hversion, hmount, hroot⟩
    rw [hversion, Except.bind, hmount, Except.bind, hroot]
    rfl

theorem parseProcCgroup_ok {cgroup mountinfo : Bytes} {proc : ProcCgroup}
    (h : parseProcCgroup cgroup mountinfo = .ok proc) :
    OwnMount proc.version (scanLines mountinfo .mountinfo) proc.mountPrefix proc.mountPoint ∧
      ∃ own, OwnCgroup proc.version (scanLines cgroup .cgroup) own ∧
        proc.root = stripRoot proc.mountPrefix own := by
  obtain ⟨-, hmount, hroot⟩ := parseProcCgroup_eq_ok.mp h
  exact ⟨scanMountInfoFrom_ok hmount, scanProcCgroupFrom_ok hroot⟩

/-! ## What is accepted -/

/-- The controllers a line of the cgroup file is about, if it can be read. -/
def Line.controllers : Line → Option Path
  | .ok line =>
    match splitn ':' 3 line with
    | [_, controllers, _] => some controllers
    | _ => none
  | .error _ => none

/-- The files have the same lines but for the hierarchy numbers and the cgroup paths. -/
def SameEntries (lines lines' : List Line) : Prop :=
  lines.map Line.controllers = lines'.map Line.controllers

theorem controllers_eq_some {line : Line} {controllers : Path} :
    line.controllers = some controllers ↔
      ∃ text hierarchy path, line = .ok text ∧
      splitn ':' 3 text = [hierarchy, controllers, path] := by
  constructor
  · intro h
    cases line with
    | error e => cases h
    | ok text =>
      unfold Line.controllers at h
      dsimp only at h
      split at h
      · rename_i hierarchy other path hline
        cases h
        exact ⟨text, hierarchy, path, rfl, hline⟩
      · cases h
  · rintro ⟨text, hierarchy, path, rfl, hline⟩
    rw [Line.controllers, hline]

theorem SameEntries.of_cons {line : Line} {lines lines' : List Line} {controllers : Path}
    (h : SameEntries (line :: lines) lines') (hline : line.controllers = some controllers) :
    ∃ text hierarchy path rest, lines' = .ok text :: rest ∧
      splitn ':' 3 text = [hierarchy, controllers, path] ∧ SameEntries lines rest := by
  cases lines' with
  | nil => cases h
  | cons line' rest =>
    obtain ⟨hhead, htail⟩ := List.cons.inj h
    obtain ⟨text, hierarchy, path, rfl, htext⟩ := controllers_eq_some.mp (hhead.symm.trans hline)
    exact ⟨text, hierarchy, path, rest, rfl, htext, htail⟩

theorem scanVersionFrom_same {lines lines' : List Line} {hasDevices unified : Bool}
    {version : CgroupVersion} (hsame : SameEntries lines lines')
    (h : scanVersionFrom hasDevices unified lines = .ok version) :
    scanVersionFrom hasDevices unified lines' = .ok version := by
  induction lines generalizing lines' hasDevices unified with
  | nil =>
    rw [List.map_eq_nil_iff.mp hsame.symm]
    exact h
  | cons line lines ih =>
    cases line with
    | error e => cases h
    | ok line =>
      simp only [scanVersionFrom, bind, Except.bind] at h
      split at h
      · rename_i hierarchy controllers path hline
        obtain ⟨text, hierarchy', path', rest, rfl, htext, hrest⟩ :=
          hsame.of_cons (controllers_eq_some.mpr ⟨line, hierarchy, path, rfl, hline⟩)
        simp only [scanVersionFrom, bind, Except.bind, htext]
        exact ih hrest h
      · cases h

theorem scanProcCgroupFrom_same {lines lines' : List Line} {wanted mountPrefix root : Path}
    {missing : ParseError} (hsame : SameEntries lines lines')
    (h : scanProcCgroupFrom wanted missing mountPrefix lines = .ok root) :
    ∃ root', scanProcCgroupFrom wanted missing mountPrefix lines' = .ok root' := by
  induction lines generalizing lines' with
  | nil => cases h
  | cons line lines ih =>
    cases line with
    | error e => cases h
    | ok line =>
      simp only [scanProcCgroupFrom, bind, Except.bind] at h
      split at h
      · rename_i hierarchy controllers path hline
        obtain ⟨text, hierarchy', path', rest, rfl, htext, hrest⟩ :=
          hsame.of_cons (controllers_eq_some.mpr ⟨line, hierarchy, path, rfl, hline⟩)
        simp only [scanProcCgroupFrom, bind, Except.bind, htext]
        split at h
        · rename_i hne
          rw [if_pos hne]
          exact ih hrest h
        · rename_i heq
          rw [if_neg heq]
          exact ⟨_, rfl⟩
      · cases h

/-- A cgroup file that differs from an accepted one in its paths only is accepted too. -/
theorem parseProcCgroup_same {cgroup cgroup' mountinfo : Bytes} {proc : ProcCgroup}
    (hsame : SameEntries (scanLines cgroup .cgroup) (scanLines cgroup' .cgroup))
    (h : parseProcCgroup cgroup mountinfo = .ok proc) :
    ∃ root, parseProcCgroup cgroup' mountinfo = .ok { proc with root := root } := by
  obtain ⟨hversion, hmount, hroot⟩ := parseProcCgroup_eq_ok.mp h
  obtain ⟨root, hroot'⟩ := scanProcCgroupFrom_same hsame hroot
  exact ⟨root, parseProcCgroup_eq_ok.mpr ⟨scanVersionFrom_same hsame hversion, hmount, hroot'⟩⟩

/-! ## The path -/

/-- The cgroup is the mount's root or below it. -/
def Below (mount own : Path) : Prop :=
  own = mount ∨ ∃ rest, own = mount ++ '/' :: rest ∨ mount.getLast? = some '/' ∧ own = mount ++ rest

/-- The path is the directory or beneath it. -/
def Within (dir path : Path) : Prop := normal dir <+: normal path

private theorem stripRoot_append {mount : Path} (hm : mount ≠ ['/']) (rest : Path) :
    stripRoot mount (mount ++ rest) = rest := by
  rw [stripRoot, if_neg hm, if_pos (by simp), List.drop_left]

/-- Taking the mount's root off and putting it back gives the cgroup. -/
theorem pushAll_stripRoot {mount own : Path} (h : Below mount own) (rooted : Bool)
    (stack : List Path) :
    pushAll rooted stack (elements mount ++ elements (stripRoot mount own)) =
      pushAll rooted stack (elements own) := by
  by_cases hm : mount = ['/']
  · rw [stripRoot, if_pos hm, hm]
    exact (pushAll_empty _ _ _).trans (pushAll_empty _ _ _)
  have hslash : ∀ rest, elements ('/' :: rest) = [] :: elements rest := elements_rooted
  rcases h with rfl | ⟨rest, rfl | ⟨hlast, rfl⟩⟩
  · have hrest := stripRoot_append hm []
    rw [List.append_nil] at hrest
    rw [hrest, pushAll_append]
    exact pushAll_empty rooted _ []
  · rw [stripRoot_append hm, elements_sep, hslash, pushAll_append, pushAll_append, pushAll_empty]
  · obtain ⟨front, rfl⟩ := List.getLast?_eq_some_iff.mp hlast
    have hfront : elements (front ++ ['/']) = elements front ++ [[]] := elements_sep front []
    rw [stripRoot_append hm, hfront, List.append_assoc, List.append_assoc, List.singleton_append,
      List.singleton_append, elements_sep, pushAll_append, pushAll_append, pushAll_empty]

private theorem pushAll_under (first second : Path) (more : List Path) :
    pushAll true [] ((first :: second :: more).flatMap elements) =
      pushAll true (pushAll true [] ([first, second].flatMap elements))
      (more.flatMap elements) := by
  rw [← pushAll_append]
  simp

/-- **The path an accepted process gets.** It is put together from the two selected lines. For a
cgroup at or below the mount's root it is that cgroup under the mount point, and it stays beneath
the mount point when nothing in it goes up. With other cgroup paths on its lines the cgroup file is
accepted too, for the same mount. -/
theorem host_path_named {cgroup mountinfo : Bytes} {proc : ProcCgroup} {hostRoot : Path}
    (hroot : hostRoot.head? = some '/') (h : parseProcCgroup cgroup mountinfo = .ok proc) :
    ∃ own mount, OwnCgroup proc.version (scanLines cgroup .cgroup) own ∧
      OwnMount proc.version (scanLines mountinfo .mountinfo) mount proc.mountPoint ∧
      hostCgroupPath hostRoot proc.mountPoint proc.mountPrefix proc.root =
        join [hostRoot, proc.mountPoint, mount, stripRoot mount own] ∧
      (Below mount own →
        hostCgroupPath hostRoot proc.mountPoint proc.mountPrefix proc.root =
          join [hostRoot, proc.mountPoint, own]) ∧
      (Below mount own ∧ dotdot ∉ elements own ∨
          dotdot ∉ elements mount ∧ dotdot ∉ elements (stripRoot mount own) →
        Within (join [hostRoot, proc.mountPoint])
          (hostCgroupPath hostRoot proc.mountPoint proc.mountPrefix proc.root)) ∧
      ∀ other, SameEntries (scanLines cgroup .cgroup) (scanLines other .cgroup) →
        ∃ root, parseProcCgroup other mountinfo = .ok { proc with root := root } := by
  obtain ⟨hmount, own, hown, hstrip⟩ := parseProcCgroup_ok h
  have hpath : hostCgroupPath hostRoot proc.mountPoint proc.mountPrefix proc.root =
      join [hostRoot, proc.mountPoint, proc.mountPrefix, stripRoot proc.mountPrefix own] := by
    rw [hostCgroupPath, hstrip]
  have hbelow : Below proc.mountPrefix own →
      hostCgroupPath hostRoot proc.mountPoint proc.mountPrefix proc.root =
        join [hostRoot, proc.mountPoint, own] := by
    intro hb
    rw [hpath, (join_rooted hroot _).1, (join_rooted hroot _).1, pushAll_under _ _ [_, _],
      pushAll_under _ _ [own]]
    have hpush := pushAll_stripRoot hb true
      (pushAll true [] ([hostRoot, proc.mountPoint].flatMap elements))
    simpa using congrArg (text true) hpush
  refine ⟨own, proc.mountPrefix, hown, hmount, hpath, hbelow, fun hup => ?_,
    fun other hsame => parseProcCgroup_same hsame h⟩
  rcases hup with ⟨hb, hup⟩ | ⟨hup, hup'⟩
  · rw [Within, hbelow hb, (join_rooted hroot _).2, (join_rooted hroot _).2,
      pushAll_under _ _ [own]]
    exact prefix_pushAll (by simpa using hup) _
  · rw [Within, hpath, (join_rooted hroot _).2, (join_rooted hroot _).2,
      pushAll_under _ _ [proc.mountPrefix, _]]
    exact prefix_pushAll (by simpa using ⟨hup, hup'⟩) _

/-- The text of a file in a process's directory. -/
def fileText (text : String) : Bytes := text.toList.map fun c => BitVec.ofNat 8 c.toNat

/-- The mountinfo file of a host with the unified hierarchy, mounted from `mount` on. -/
def unifiedMount (mount : String) : Bytes :=
  fileText ("31 23 0:27 " ++ mount ++ " /sys/fs/cgroup rw,nosuid - cgroup2 cgroup2 rw\n")

/-- A container below the mount's root, and another path on its line. -/
theorem host_path_named_docker :
    ∃ proc, parseProcCgroup (fileText "0::/docker/abc\n") (unifiedMount "/docker") = .ok proc ∧
      hostCgroupPath "/host".toList proc.mountPoint proc.mountPrefix proc.root =
        join ["/host".toList, proc.mountPoint, "/docker/abc".toList] ∧
      Within (join ["/host".toList, proc.mountPoint])
        (hostCgroupPath "/host".toList proc.mountPoint proc.mountPrefix proc.root) ∧
      ∃ root, parseProcCgroup (fileText "0::/../etc\n") (unifiedMount "/docker") =
        .ok { proc with root := root } := by
  have hparse : parseProcCgroup (fileText "0::/docker/abc\n") (unifiedMount "/docker") =
      .ok ⟨.v2, "/docker".toList, "/sys/fs/cgroup".toList, "/abc".toList⟩ := by decide +kernel
  obtain ⟨own, mount, hown, hmount, -, hpath, hwithin, hother⟩ :=
    host_path_named (show "/host".toList.head? = some '/' from rfl) hparse
  obtain rfl : own = "/docker/abc".toList := by
    have hlines : scanLines (fileText "0::/docker/abc\n") .cgroup =
        [.ok "0::/docker/abc".toList] := by
      decide +kernel
    have hfields : splitn ':' 3 "0::/docker/abc".toList = ["0".toList, [],
        "/docker/abc".toList] := by
      decide +kernel
    obtain ⟨line, hierarchy, hfirst, hline⟩ := hown
    rw [hlines] at hfirst
    rw [hfirst.eq_of_single, hfields] at hline
    exact (List.cons.inj (List.cons.inj (List.cons.inj hline).2).2).1.symm
  obtain rfl : mount = "/docker".toList := by
    have hlines : scanLines (unifiedMount "/docker") .mountinfo =
        [.ok "31 23 0:27 /docker /sys/fs/cgroup rw,nosuid - cgroup2 cgroup2 rw".toList] := by
      decide +kernel
    obtain ⟨line, hfirst, -, hroot, -⟩ := hmount
    rw [hlines] at hfirst
    rw [← hroot, hfirst.eq_of_single]
    decide +kernel
  have hbelow : Below "/docker".toList "/docker/abc".toList := .inr ⟨"abc".toList, .inl rfl⟩
  refine ⟨_, hparse, hpath hbelow, hwithin (.inl ⟨hbelow, by decide +kernel⟩), hother _ ?_⟩
  unfold SameEntries
  decide +kernel

/-- The unified cgroup of a file with one line. -/
theorem ownCgroup_single {data : Bytes} {line hierarchy own : Path}
    (hlines : scanLines data .cgroup = [.ok line])
    (hline : splitn ':' 3 line = [hierarchy, [], own]) :
    OwnCgroup .v2 (scanLines data .cgroup) own := by
  rw [hlines]
  exact ⟨line, hierarchy, .head ⟨hierarchy, own, hline⟩ [], hline⟩

/-- **Another cgroup is named.** A cgroup that is not below the mount's root is put below it; the
root is taken off inside a name; and a `..` leads out of the mount point. -/
theorem other_cgroup_named :
    (OwnCgroup .v2 (scanLines (fileText "0::/docker/abc\n") .cgroup) "/docker/abc".toList ∧
      ∃ proc, parseProcCgroup (fileText "0::/docker/abc\n") (unifiedMount "/other") = .ok proc ∧
        hostCgroupPath "/host".toList proc.mountPoint proc.mountPrefix proc.root =
          "/host/sys/fs/cgroup/other/docker/abc".toList) ∧
    (OwnCgroup .v2 (scanLines (fileText "0::/docker/abcdef\n") .cgroup) "/docker/abcdef".toList ∧
      ∃ proc, parseProcCgroup (fileText "0::/docker/abcdef\n")
      (unifiedMount "/docker/abc") = .ok proc ∧
        hostCgroupPath "/host".toList proc.mountPoint proc.mountPrefix proc.root =
          "/host/sys/fs/cgroup/docker/abc/def".toList) ∧
    OwnCgroup .v2 (scanLines (fileText "0::/../../../../etc\n") .cgroup) "/../../../../etc".toList ∧
      ∃ proc, parseProcCgroup (fileText "0::/../../../../etc\n") (unifiedMount "/") = .ok proc ∧
        hostCgroupPath "/host".toList proc.mountPoint proc.mountPrefix proc.root = "/etc".toList ∧
        ¬ Within (join ["/host".toList, proc.mountPoint])
          (hostCgroupPath "/host".toList proc.mountPoint proc.mountPrefix proc.root) := by
  refine ⟨⟨?_, ⟨.v2, "/other".toList, "/sys/fs/cgroup".toList, "/docker/abc".toList⟩, ?_, ?_⟩,
    ⟨?_, ⟨.v2, "/docker/abc".toList, "/sys/fs/cgroup".toList, "def".toList⟩, ?_, ?_⟩, ?_,
    ⟨.v2, "/".toList, "/sys/fs/cgroup".toList, "/../../../../etc".toList⟩, ?_, ?_, ?_⟩
  · exact @ownCgroup_single _ "0::/docker/abc".toList "0".toList _ (by decide +kernel)
      (by decide +kernel)
  · decide +kernel
  · decide +kernel
  · exact @ownCgroup_single _ "0::/docker/abcdef".toList "0".toList _ (by decide +kernel)
      (by decide +kernel)
  · decide +kernel
  · decide +kernel
  · exact @ownCgroup_single _ "0::/../../../../etc".toList "0".toList _ (by decide +kernel)
      (by decide +kernel)
  · decide +kernel
  · decide +kernel
  · unfold Within
    decide +kernel

end Cgroup
end Sda
