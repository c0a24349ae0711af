import DeviceAccess.Filter.Meaning
import DeviceAccess.Lib.Lists
import DeviceAccess.V2.Pass

/-!
# The attached programs and what stands for them

A program shows its canonical bytes when it is dumped (`Prog.Shows`), and these bytes say what it
allows and which original is underneath (`Prog.Allows`, `Prog.Carries`). A request passes a cgroup
when every attached program allows it (`Admits`).

`Planned.stands` connects the blocks of a plan to the programs: the programs a block accounts for
carry the original of its lineage, and so does the program that stands for them in the end.
-/

namespace Sda
namespace V2

open Asm Sda.Filter Handover

variable {sha256 : Bytes → Vector Byte 32}

/-! ## What a program is -/

/-- The canonical bytes of the program, if it can be read. -/
def Prog.bytes (prog : Prog) : Option Bytes :=
  match prog.dump with
  | .error _ => none
  | .ok dump => (canonicalBytes dump.instructions).toOption

/-- The canonical bytes of the program are `raw`. -/
def Prog.Shows (prog : Prog) (raw : Bytes) : Prop := prog.bytes = some raw

/-- `original` is underneath all wrappers of the program. -/
def Prog.Carries (sha256 : Bytes → Vector Byte 32) (prog : Prog) (original : Bytes) : Prop :=
  ∃ raw, prog.Shows raw ∧ Innermost sha256 raw original

/-- The program allows the request. -/
def Prog.Allows (sha256 : Bytes → Vector Byte 32) (base : Bytes → Request → Prop) (prog : Prog)
    (req : Request) : Prop :=
  ∃ raw, prog.Shows raw ∧ Filter.Allows sha256 base raw req

/-- Every attached program allows the request. -/
def Admits (sha256 : Bytes → Vector Byte 32) (base : Bytes → Request → Prop) (attached : List Prog)
    (req : Request) : Prop :=
  ∀ prog ∈ attached, prog.Allows sha256 base req

theorem Prog.Shows.unique {prog : Prog} {a b : Bytes} (h : prog.Shows a) (h' : prog.Shows b) :
    a = b :=
  Option.some.inj (h.symm.trans h')

theorem Prog.Shows.intro {prog : Prog} {dump : Dump} {raw : Bytes} (hd : prog.dump = .ok dump)
    (h : canonicalBytes dump.instructions = .ok raw) : prog.Shows raw := by
  rw [Prog.Shows, Prog.bytes, hd]
  simp only [h]
  rfl

theorem Prog.Carries.unique {prog : Prog} {a b : Bytes} (h : prog.Carries sha256 a)
    (h' : prog.Carries sha256 b) : a = b := by
  obtain ⟨raw, hs, hi⟩ := h
  obtain ⟨raw', hs', hi'⟩ := h'
  cases hs.unique hs'
  exact hi.unique hi'

/-- A canonical program is dumped as it was loaded. -/
theorem newProg_shows {raw : Bytes} (h : CanonicalProgram raw) (id : Nat) :
    (newProg id raw).Shows raw := by
  obtain ⟨is, hne, hd, he⟩ := h
  have hraw : raw ≠ [] := by
    rintro rfl
    cases hd
    exact hne rfl
  refine @Prog.Shows.intro _ ⟨is, ⟨true, 0⟩, hne, raw, hd⟩ _ ?_ he
  unfold Prog.dump
  rw [dif_neg (show (newProg id raw).xlated ≠ [] from hraw)]
  split
  · rename_i e he'
    rw [show decode raw = .error e from he'] at hd
    cases hd
  · rename_i is' hd'
    rw [show decode raw = .ok is' from hd'] at hd
    cases hd
    rfl

/-! ## Classified programs -/

/-- What the classification found out about the program. -/
structure Classified (prog : Prog) (found : AttachedProg sha256) : Prop where
  raw : prog.Shows found.raw
  progMeta : found.progMeta = prog.progMeta
  bare : found.owned = false → parseOwned sha256 found.raw = .ok none
  owned : found.owned = true → gate found.original.raw found.progMeta = .ok () ∧
    ∃ rules, parseOwnedInnermost sha256 found.raw = .ok
      (some ⟨found.nonce, rules, found.original.raw⟩)

theorem Classified.innermost {prog : Prog} {found : AttachedProg sha256}
    (h : Classified prog found) : Innermost sha256 found.raw found.original.raw := by
  cases ho : found.owned with
  | false =>
    rw [found.bare ho]
    exact .bare (h.bare ho)
  | true =>
    obtain ⟨-, rules, hp⟩ := h.owned ho
    exact innermost_of_parse hp

theorem Classified.carries {prog : Prog} {found : AttachedProg sha256}
    (h : Classified prog found) : prog.Carries sha256 found.original.raw :=
  ⟨found.raw, h.raw, h.innermost⟩

theorem dump_progMeta {prog : Prog} {dump : Dump} (h : prog.dump = .ok dump) :
    dump.progMeta = prog.progMeta := by
  unfold Prog.dump at h
  split at h
  · cases h
  · split at h
    · cases h
    · cases h; rfl

theorem classifyDump_ok {index : Nat} {prog : Prog} {dump : Dump} {found : AttachedProg sha256}
    (hd : prog.dump = .ok dump) (h : classifyDump index dump = .ok found) :
    Classified prog found := by
  have hmeta := dump_progMeta hd
  unfold classifyDump at h
  split at h
  · cases h
  · rename_i raw hraw
    split at h
    · cases h
    · rename_i hown
      cases h
      refine ⟨.intro hd hraw, hmeta, fun _ => parseOwned_of_innermost_none hown, fun hnot => ?_⟩
      cases hnot
    · rename_i owned hown
      obtain ⟨u, hg, h⟩ := except_bind_ok h
      cases h
      refine ⟨.intro hd hraw, hmeta, fun hnot => ?_, fun _ => ⟨hg, owned.rules, hown⟩⟩
      cases hnot

theorem classifyAll_ok {index : Nat} {attached : List Prog} {progs : List (AttachedProg sha256)}
    (h : classifyAll index attached = .ok progs) : List.Forall₂ Classified attached progs := by
  induction attached generalizing index progs with
  | nil => cases h; exact .nil
  | cons prog attached ih =>
    rw [classifyAll] at h
    obtain ⟨dump, hdump, h₁⟩ := except_bind_ok h
    obtain ⟨first, hfirst, h₂⟩ := except_bind_ok h₁
    obtain ⟨rest, hrest, h₃⟩ := except_bind_ok h₂
    cases h₃
    exact .cons (classifyDump_ok (mapError_ok_inv hdump) hfirst) (ih hrest)

/-- The programs and what was found out about them, by position. -/
theorem classifyAll_get {attached : List Prog} {progs : List (AttachedProg sha256)}
    (h : classifyAll 0 attached = .ok progs) :
    progs.length = attached.length ∧ ∀ i (hi : i < progs.length),
      Classified (fetch attached i) progs[i] ∧ progs[i].index = i := by
  have hall := List.forall₂_iff_get.mp (classifyAll_ok h)
  refine ⟨hall.1.symm, fun i hi => ?_⟩
  have hi' : i < attached.length := by rw [hall.1]; exact hi
  have hindex := congrArg (·[i]?) (classifyAll_index h)
  simp only [List.getElem?_map, List.getElem?_eq_getElem hi, Option.map_some] at hindex
  rw [List.getElem?_range' hi'] at hindex
  have hfetch : fetch attached i = attached[i] :=
    Option.some.inj ((getElem?_fetch hi').symm.trans (List.getElem?_eq_getElem hi'))
  rw [hfetch]
  exact ⟨hall.2 i hi' hi, by simpa using hindex⟩

private theorem fetch_mem {attached : List Prog} {i : Nat} (h : i < attached.length) :
    fetch attached i ∈ attached :=
  List.mem_iff_getElem?.mpr ⟨i, getElem?_fetch h⟩

/-- The index of a classified program leads back to it. -/
theorem classifyAll_fetch {attached : List Prog} {progs : List (AttachedProg sha256)}
    (h : classifyAll 0 attached = .ok progs) {found : AttachedProg sha256} (hf : found ∈ progs) :
    fetch attached found.index ∈ attached ∧ Classified (fetch attached found.index) found := by
  obtain ⟨hlen, hget⟩ := classifyAll_get h
  obtain ⟨i, hi, rfl⟩ := List.mem_iff_getElem.mp hf
  obtain ⟨hc, hindex⟩ := hget i hi
  rw [hindex]
  exact ⟨fetch_mem (hlen ▸ hi), hc⟩

/-- Every attached program was classified. -/
theorem classifyAll_found {attached : List Prog} {progs : List (AttachedProg sha256)}
    (h : classifyAll 0 attached = .ok progs) {prog : Prog} (hp : prog ∈ attached) :
    ∃ found ∈ progs, Classified prog found ∧ fetch attached found.index = prog := by
  obtain ⟨hlen, hget⟩ := classifyAll_get h
  obtain ⟨i, hi⟩ := List.mem_iff_getElem?.mp hp
  obtain ⟨hlt, -⟩ := List.getElem?_eq_some_iff.mp hi
  obtain ⟨hc, hindex⟩ := hget i (hlen ▸ hlt)
  have hfetch : fetch attached i = prog := Option.some.inj ((getElem?_fetch hlt).symm.trans hi)
  rw [hfetch] at hc
  exact ⟨_, List.getElem_mem _, hc, by rw [hindex, hfetch]⟩

theorem Classified.owned_eq {prog : Prog} {found : AttachedProg sha256}
    (h : Classified prog found) :
    found.owned = false ↔ parseOwned sha256 found.raw = .ok none := by
  refine ⟨h.bare, fun hb => ?_⟩
  cases ho : found.owned with
  | false => rfl
  | true =>
    obtain ⟨-, rules, hp⟩ := h.owned ho
    obtain ⟨outer, hp', -⟩ := parseOwned_of_innermost_some hp
    rw [hb] at hp'
    cases hp'

/-! ## Stand-ins -/

theorem Target.innermost {rules : List DeviceRule} {lineage : CachedLineage sha256} {raw : Bytes}
    (h : Target rules lineage raw) : Innermost sha256 raw lineage.original.raw := by
  unfold Target at h
  split at h
  · rw [h]; exact .bare lineage.original.bare
  · exact .wrapper ⟨lineage.original.canonical, h⟩ (.bare lineage.original.bare)

theorem Target.wrapperOf {rules : List DeviceRule} {lineage : CachedLineage sha256} {raw : Bytes}
    (h : Target rules lineage raw) (hr : rules ≠ []) :
    WrapperOf sha256 rules lineage.nonce lineage.original.raw raw := by
  rw [Target, if_neg hr] at h
  exact ⟨lineage.original.canonical, h⟩

/-- The part of the block: what it accounts for and what stands for it. -/
structure Stands (rules : List DeviceRule) (block : Block sha256) (part : Part Prog Prog) :
    Prop where
  members : ∀ prog ∈ part.members, prog.Carries sha256 block.lineage.original.raw
  standin : ∃ raw, part.standin.Shows raw ∧ Target rules block.lineage raw ∧
    (part.standin ∈ part.members ∨
      ∃ id name, part.standin = newProg id raw ∧ block.part.new = some (raw, name))

theorem Stands.carries {rules : List DeviceRule} {block : Block sha256} {part : Part Prog Prog}
    (h : Stands rules block part) : part.standin.Carries sha256 block.lineage.original.raw := by
  obtain ⟨raw, hs, ht, -⟩ := h.standin
  exact ⟨raw, hs, ht.innermost⟩

theorem Accounts.stands {rules : List DeviceRule} {attached : List Prog}
    {share : List (AttachedProg sha256)} {block : Block sha256} (h : Accounts rules share block)
    (hc : ∀ found ∈ share, Classified (fetch attached found.index) found) (id : Nat) :
    Stands rules block (realizePart attached id block.part) := by
  have hmember : ∀ i ∈ block.part.members,
      (fetch attached i).Carries sha256 block.lineage.original.raw := by
    intro i hi
    obtain ⟨found, hf, rfl⟩ := List.mem_map.mp (h.members.mem_iff.mp hi)
    rw [← h.original found hf]
    exact (hc found hf).carries
  have hmap : ∀ l : List Nat, (∀ i ∈ l, i ∈ block.part.members) → ∀ prog ∈ l.map (fetch attached),
      prog.Carries sha256 block.lineage.original.raw := by
    intro l hl prog hp
    obtain ⟨i, hi, rfl⟩ := List.mem_map.mp hp
    exact hmember i (hl i hi)
  have hnew : ∀ load : Load, block.part.new = some load →
      (newProg id load.1).Shows load.1 ∧ Target rules block.lineage load.1 := fun load hl =>
    ⟨newProg_shows (h.new load hl).canonical id, h.new load hl⟩
  cases hpart : block.part with
  | keep keeper drops =>
    rw [hpart] at hmap
    obtain ⟨found, hf, rfl, ht⟩ := h.keeper keeper drops hpart
    exact ⟨hmap (found.index :: drops) fun i hi => hi, found.raw, (hc found hf).raw, ht,
      .inl List.mem_cons_self⟩
  | swap old load drops =>
    rw [hpart] at hmap hnew
    obtain ⟨hs, ht⟩ := hnew load rfl
    exact ⟨hmap (old :: drops) fun i hi => hi, load.1, hs, ht,
      .inr ⟨id, load.2, rfl, by rw [hpart]; rfl⟩⟩
  | attach load =>
    rw [hpart] at hnew
    obtain ⟨hs, ht⟩ := hnew load rfl
    exact ⟨nofun, load.1, hs, ht, .inr ⟨id, load.2, rfl, by rw [hpart]; rfl⟩⟩

section Planned

variable {source : Nat → Except NonceError (BitVec 64)} {id : Identity} {rules : List DeviceRule}
  {w : World sha256} {progs : List (AttachedProg sha256)} {blocks : List (Block sha256)}
  {drawn : Nat}

/-- **The blocks of a plan and the programs.** -/
theorem Planned.stands (h : Planned source id rules w progs blocks drawn) :
    List.Forall₂ (Stands rules) blocks (partsIn w blocks) := by
  obtain ⟨shares, hs, hp⟩ := h.blocks.accounts
  have hshare : ∀ share ∈ shares, ∀ found ∈ share,
      Classified (fetch w.kernel.attached found.index) found := fun share hm found hf =>
    (classifyAll_fetch h.classified (hp.mem_iff.mp (List.mem_flatten.mpr ⟨share, hm, hf⟩))).2
  unfold partsIn
  generalize w.kernel.nextId = n
  clear hp h
  induction hs generalizing n with
  | nil => exact .nil
  | cons hfirst _ ih =>
    rw [List.map_cons, realize]
    exact .cons (hfirst.stands (hshare _ List.mem_cons_self) n)
      (ih (fun share hm => hshare share (List.mem_cons_of_mem _ hm)) _)

theorem Planned.stands_part (h : Planned source id rules w progs blocks drawn)
    {part : Part Prog Prog} (hp : part ∈ partsIn w blocks) :
    ∃ block ∈ blocks, Stands rules block part := by
  obtain ⟨i, hi, rfl⟩ := List.mem_iff_getElem.mp hp
  have hall := List.forall₂_iff_get.mp h.stands
  have hi' : i < blocks.length := by rw [hall.1]; exact hi
  exact ⟨blocks[i], List.getElem_mem hi', hall.2 i hi' hi⟩

theorem Planned.stands_block (h : Planned source id rules w progs blocks drawn)
    {block : Block sha256} (hb : block ∈ blocks) :
    ∃ part ∈ partsIn w blocks, Stands rules block part := by
  obtain ⟨i, hi, rfl⟩ := List.mem_iff_getElem.mp hb
  have hall := List.forall₂_iff_get.mp h.stands
  have hi' : i < (partsIn w blocks).length := by rw [← hall.1]; exact hi
  exact ⟨(partsIn w blocks)[i], List.getElem_mem hi', hall.2 i hi hi'⟩

end Planned

/-! ## Cgroups with one filter and with two -/

/-- A device filter of a container runtime that denies everything. -/
def denyProg : Prog := newProg 0 denyAll

/-- A cgroup with that filter, and a process that knows nothing yet. -/
def denyWorld : World sampleSha256 where
  kernel := ⟨[denyProg], fAllowMulti, 1, by simp, by simp [denyProg, newProg]⟩
  replace := .unknown
  cache := fun _ => none
  calls := 0
  drawn := 0
  log := []

private theorem twins_distinct : [newProg 0 denyAll, newProg 1 denyAll].Nodup := by decide

private theorem twins_known :
    ∀ prog ∈ [newProg 0 denyAll, newProg 1 denyAll], prog.id < 2 := by simp [newProg]

/-- A cgroup with the same filter twice. -/
def twinWorld : World sampleSha256 where
  kernel := ⟨[newProg 0 denyAll, newProg 1 denyAll], fAllowMulti, 2, twins_distinct, twins_known⟩
  replace := .unknown
  cache := fun _ => none
  calls := 0
  drawn := 0
  log := []

/-- All access to one device, as the daemon asks for it. -/
def tunRule : DeviceRule := ⟨true, "c", some 10, some 200, "rwm"⟩

/-- Nothing fails, nothing interferes, and the nonces are 1, 2, 3 and so on. -/
def quietEnv : Env where
  fault _ := none
  wiped _ := false
  nonce n := .ok (BitVec.ofNat 64 (n + 1))
  insnLimit := 1000000
  insnLimit_lt := by decide

def sampleId : Identity := ⟨"/sys/fs/cgroup/app", 7⟩

end V2
end Sda
