import Mathlib.Data.Prod.Lex
import Mathlib.Data.Finset.Basic
import Mathlib.Data.List.Sort
import DeviceAccess.Error

/-!
# The device exceptions of cgroup v1 (`src/cgroup/v1set.rs`)

`devices.list` has one entry per type and numbers, exact or with wildcards. A device access is
effective if an entry covers it. A write to `devices.allow` or `devices.deny` changes the entry with
exactly the type and numbers it names and no other (`DevicesList.allow`, `DevicesList.deny`), which
is the kernel the tests of the source run against.

What a list means is two sets of bits: those that its exact entries hold and those that its wildcard
entries cover. A write for one bit adds it to, or takes it out of, the first and leaves the second.
-/

namespace Sda
namespace V1

open Sda.Filter

/-! ## Bits -/

/-- One access to a device. -/
inductive Access where
  | read | write | mknod
  deriving DecidableEq, Repr

/-- `ACC_READ`, `ACC_WRITE` and `ACC_MKNOD`. -/
def Access.mask : Access → BitVec 3
  | .read => 1
  | .write => 2
  | .mknod => 4

def Access.letter : Access → Char
  | .read => 'r'
  | .write => 'w'
  | .mknod => 'm'

/-- `ACCESS_BITS`. -/
def accessBits : List Access := [.read, .write, .mknod]

/-- One access bit of one device: the unit the ledger owns. -/
structure DevBit where
  kind : DeviceType
  major : Nat
  minor : Nat
  access : Access
  deriving DecidableEq, Repr

/-- The letter of a device type. -/
def letter : DeviceType → String
  | .block => "b"
  | .char => "c"

/-- `access_string`. -/
def accessString (mask : BitVec 3) : String :=
  String.ofList ((accessBits.filter fun access => mask &&& access.mask != 0).map Access.letter)

namespace DevBit

/-- The `devices.allow` and `devices.deny` line: `c 1:3 r`. -/
def line (bit : DevBit) : String :=
  letter bit.kind ++ " " ++ toString bit.major ++ ":" ++ toString bit.minor ++ " " ++
    accessString bit.access.mask

/-- What bits are ordered by: type, major, minor, access. -/
def rank (bit : DevBit) : Nat ×ₗ Nat ×ₗ Nat ×ₗ Nat :=
  toLex (bit.kind.code.toNat, toLex (bit.major, toLex (bit.minor, bit.access.mask.toNat)))

theorem rank_injective : Function.Injective rank := by
  rintro ⟨kind, major, minor, access⟩ ⟨kind', major', minor', access'⟩ h
  simp only [rank, EmbeddingLike.apply_eq_iff_eq, Prod.mk.injEq] at h
  obtain ⟨hkind, rfl, rfl, haccess⟩ := h
  have : kind = kind' := by revert hkind; cases kind <;> cases kind' <;> decide
  have : access = access' := by revert haccess; cases access <;> cases access' <;> decide
  subst kind' access'
  rfl

instance : LinearOrder DevBit := LinearOrder.lift' rank rank_injective

end DevBit

/-- The bits in their order, as the source goes through a `BTreeSet`. -/
def inOrder (bits : Finset DevBit) : List DevBit :=
  Quot.liftOn bits.val (List.insertionSort (· ≤ ·)) fun first second h =>
    List.Perm.eq_of_sortedLE List.sortedLE_insertionSort List.sortedLE_insertionSort
      ((List.perm_insertionSort _ first).trans (h.trans (List.perm_insertionSort _ second).symm))

@[simp] theorem mem_inOrder {bits : Finset DevBit} {bit : DevBit} :
    bit ∈ inOrder bits ↔ bit ∈ bits := by
  obtain ⟨⟨list⟩, hnodup⟩ := bits
  exact List.mem_insertionSort (· ≤ ·)

/-! ## Entries -/

/-- The type of a `devices.list` entry. -/
inductive EntryKind where
  | all
  | of (type : DeviceType)
  deriving DecidableEq, Repr

/-- `*` in a major or minor number. -/
def wildcard : Int := -1

/-- One `devices.list` line. A number may be `wildcard`; `access` is a mask. -/
structure ListEntry where
  kind : EntryKind
  major : Int
  minor : Int
  access : BitVec 3
  deriving DecidableEq, Repr

/-- What an entry is an exception for: its type and numbers. -/
abbrev Key := EntryKind × Int × Int

namespace ListEntry

def key (entry : ListEntry) : Key := (entry.kind, entry.major, entry.minor)

def covers (entry : ListEntry) (bit : DevBit) : Bool :=
  (entry.kind == .all || entry.kind == .of bit.kind) &&
    (entry.major == wildcard || entry.major == bit.major) &&
    (entry.minor == wildcard || entry.minor == bit.minor) &&
    entry.access &&& bit.access.mask != 0

/-- The entry is for one device. -/
def exact (entry : ListEntry) : Bool :=
  entry.kind != .all && entry.major != wildcard && entry.minor != wildcard

end ListEntry

def covered (entries : List ListEntry) (bit : DevBit) : Bool :=
  entries.any fun entry => entry.covers bit

/-- The key of the device of the bit. -/
def DevBit.key (bit : DevBit) : Key := (.of bit.kind, bit.major, bit.minor)

/-- The entry of one bit alone: what a line of `devices.allow` says. -/
def DevBit.entry (bit : DevBit) : ListEntry := ⟨.of bit.kind, bit.major, bit.minor, bit.access.mask⟩

/-- The entry's access without that of the owned bits of the same device. -/
def clearOwned (entry : ListEntry) (owned : List DevBit) : BitVec 3 :=
  owned.foldl (fun access bit =>
    if bit.key = entry.key then access &&& ~~~bit.access.mask else access) entry.access

/-- `without_owned`: the entries without the owned bits. Wildcard entries stay. -/
def withoutOwned (entries : List ListEntry) (owned : Finset DevBit) : List ListEntry :=
  (entries.map fun entry =>
    if entry.exact then { entry with access := clearOwned entry (inOrder owned) } else entry).filter
    fun entry => entry.access != 0

/-! ## The kernel -/

/-- Adds the access of `rule` to the entry with its key, which is made if there is none. -/
def allowEntry (rule : ListEntry) : List ListEntry → List ListEntry
  | [] => [rule]
  | entry :: entries =>
    if entry.key = rule.key then { entry with access := entry.access ||| rule.access } :: entries
    else entry :: allowEntry rule entries

/-- Clears the access of `rule` in the entry with its key, which goes if nothing is left of it. -/
def denyEntry (rule : ListEntry) : List ListEntry → List ListEntry
  | [] => []
  | entry :: entries =>
    if entry.key = rule.key then
      if entry.access &&& ~~~rule.access = 0 then entries
      else { entry with access := entry.access &&& ~~~rule.access } :: entries
    else entry :: denyEntry rule entries

theorem allowEntry_keys {rule entry : ListEntry} {entries : List ListEntry}
    (h : entry ∈ allowEntry rule entries) :
    entry.key = rule.key ∨ ∃ old ∈ entries, old.key = entry.key := by
  induction entries with
  | nil => exact .inl (by rw [List.mem_singleton.mp h])
  | cons first rest ih =>
    rw [allowEntry] at h
    split at h
    next hkey =>
      rcases List.mem_cons.mp h with rfl | h
      · exact .inl hkey
      · exact .inr ⟨entry, List.mem_cons_of_mem _ h, rfl⟩
    next =>
      rcases List.mem_cons.mp h with rfl | h
      · exact .inr ⟨entry, List.mem_cons_self, rfl⟩
      · rcases ih h with h | ⟨old, hold, hk⟩
        · exact .inl h
        · exact .inr ⟨old, List.mem_cons_of_mem _ hold, hk⟩

theorem denyEntry_keys {rule entry : ListEntry} {entries : List ListEntry}
    (h : entry ∈ denyEntry rule entries) : ∃ old ∈ entries, old.key = entry.key := by
  induction entries with
  | nil => cases h
  | cons first rest ih =>
    rw [denyEntry] at h
    split at h
    next =>
      split at h
      next => exact ⟨entry, List.mem_cons_of_mem _ h, rfl⟩
      next =>
        rcases List.mem_cons.mp h with rfl | h
        · exact ⟨first, List.mem_cons_self, rfl⟩
        · exact ⟨entry, List.mem_cons_of_mem _ h, rfl⟩
    next =>
      rcases List.mem_cons.mp h with rfl | h
      · exact ⟨entry, List.mem_cons_self, rfl⟩
      · obtain ⟨old, hold, hk⟩ := ih h
        exact ⟨old, List.mem_cons_of_mem _ hold, hk⟩

/-- No two entries have the same key. -/
def Distinct (entries : List ListEntry) : Prop :=
  entries.Pairwise fun first second => first.key ≠ second.key

theorem Distinct.allowEntry {entries : List ListEntry} (h : Distinct entries) (rule : ListEntry) :
    Distinct (allowEntry rule entries) := by
  induction h with
  | nil => exact List.pairwise_singleton _ _
  | @cons first rest hfirst hrest ih =>
    rw [V1.allowEntry]
    split
    next => exact List.pairwise_cons.mpr ⟨hfirst, hrest⟩
    next hkey =>
      refine List.pairwise_cons.mpr ⟨fun entry he => ?_, ih⟩
      rcases allowEntry_keys he with h | ⟨old, hold, hk⟩
      · rwa [h]
      · rw [← hk]
        exact hfirst old hold

theorem Distinct.denyEntry {entries : List ListEntry} (h : Distinct entries) (rule : ListEntry) :
    Distinct (denyEntry rule entries) := by
  induction h with
  | nil => exact List.Pairwise.nil
  | @cons first rest hfirst hrest ih =>
    rw [V1.denyEntry]
    split
    next =>
      split
      next => exact hrest
      next => exact List.pairwise_cons.mpr ⟨hfirst, hrest⟩
    next =>
      refine List.pairwise_cons.mpr ⟨fun entry he => ?_, ih⟩
      obtain ⟨old, hold, hk⟩ := denyEntry_keys he
      rw [← hk]
      exact hfirst old hold

/-- The exceptions of one cgroup, at most one for a key. -/
structure DevicesList where
  entries : List ListEntry
  distinct : Distinct entries

namespace DevicesList

def allow (list : DevicesList) (rule : ListEntry) : DevicesList :=
  ⟨allowEntry rule list.entries, list.distinct.allowEntry rule⟩

def deny (list : DevicesList) (rule : ListEntry) : DevicesList :=
  ⟨denyEntry rule list.entries, list.distinct.denyEntry rule⟩

/-- A write to `devices.allow` or to `devices.deny`. -/
def apply (list : DevicesList) (allow : Bool) (rule : ListEntry) : DevicesList :=
  if allow then list.allow rule else list.deny rule

/-- The access is granted. -/
def Effective (list : DevicesList) (bit : DevBit) : Prop := covered list.entries bit = true

end DevicesList

/-! ## The bits of a list -/

private theorem mask_and_mask (mask : BitVec 3) (first second : Access) :
    (mask &&& ~~~first.mask) &&& second.mask ≠ 0 ↔ mask &&& second.mask ≠ 0 ∧ first ≠ second := by
  cases first <;> cases second <;> revert mask <;> decide

/-- The exact entry of the bit's device holds the bit. -/
def Holds (entries : List ListEntry) (bit : DevBit) : Prop :=
  ∃ entry ∈ entries, entry.key = bit.key ∧ entry.access &&& bit.access.mask ≠ 0

/-- The entries with a wildcard. -/
def wildcards (entries : List ListEntry) : List ListEntry :=
  entries.filter fun entry => !entry.exact

theorem key_exact {entry : ListEntry} {bit : DevBit} (h : entry.key = bit.key) :
    entry.exact = true := by
  obtain ⟨kind, major, minor, access⟩ := entry
  simp only [ListEntry.key, DevBit.key, Prod.mk.injEq] at h
  obtain ⟨rfl, rfl, rfl⟩ := h
  simp only [ListEntry.exact, wildcard, Bool.and_eq_true, bne_iff_ne, ne_eq, reduceCtorEq,
    not_false_eq_true, true_and]

private theorem covers_iff {entry : ListEntry} {bit : DevBit} (h : entry.exact = true) :
    entry.covers bit = true ↔ entry.key = bit.key ∧ entry.access &&& bit.access.mask ≠ 0 := by
  obtain ⟨kind, major, minor, access⟩ := entry
  simp only [ListEntry.exact, Bool.and_eq_true, bne_iff_ne, ne_eq] at h
  obtain ⟨⟨hkind, hmajor⟩, hminor⟩ := h
  simp [ListEntry.covers, ListEntry.key, DevBit.key, hkind, hmajor, hminor, and_assoc]

/-- An access is granted by the exact entry of its device or by a wildcard. -/
theorem covered_iff {entries : List ListEntry} {bit : DevBit} :
    covered entries bit = true ↔ Holds entries bit ∨ covered (wildcards entries) bit = true := by
  simp only [covered, List.any_eq_true]
  constructor
  · rintro ⟨entry, he, hc⟩
    by_cases hexact : entry.exact = true
    · exact .inl ⟨entry, he, (covers_iff hexact).mp hc⟩
    · exact .inr ⟨entry, List.mem_filter.mpr ⟨he, by simpa using hexact⟩, hc⟩
  · rintro (⟨entry, he, hk, ha⟩ | ⟨entry, he, hc⟩)
    · exact ⟨entry, he, (covers_iff (key_exact hk)).mpr ⟨hk, ha⟩⟩
    · exact ⟨entry, (List.mem_filter.mp he).1, hc⟩

/-! ## The owned bits taken out -/

theorem clearOwned_iff {entry : ListEntry} {owned : List DevBit} {access : Access} :
    clearOwned entry owned &&& access.mask ≠ 0 ↔
      entry.access &&& access.mask ≠ 0 ∧ ∀ bit ∈ owned, bit.key = entry.key →
      bit.access ≠ access := by
  unfold clearOwned
  generalize entry.access = mask, entry.key = key
  induction owned generalizing mask with
  | nil => simp
  | cons first rest ih =>
    rw [List.foldl_cons, List.forall_mem_cons]
    by_cases hkey : first.key = key
    · rw [if_pos hkey]
      refine (ih (mask &&& ~~~first.access.mask)).trans ?_
      rw [mask_and_mask, and_assoc]
      exact and_congr_right fun _ => and_congr_left fun _ => ⟨fun h _ => h, fun h => h hkey⟩
    · rw [if_neg hkey]
      refine (ih mask).trans (and_congr_right fun _ => ?_)
      exact ⟨fun h => ⟨fun h' => absurd h' hkey, h⟩, fun h => h.2⟩

section WithoutOwned

variable {entries : List ListEntry} {owned : Finset DevBit} {bit : DevBit}

theorem mem_withoutOwned {entry : ListEntry} : entry ∈ withoutOwned entries owned ↔
    entry.access ≠ 0 ∧ ∃ old ∈ entries,
      (if old.exact then { old with access := clearOwned old (inOrder owned) } else old) =
      entry := by
  rw [withoutOwned, List.mem_filter, List.mem_map, bne_iff_ne, and_comm]

theorem holds_withoutOwned : Holds (withoutOwned entries owned) bit ↔ Holds entries bit ∧
    bit ∉ owned := by
  have hkept : ∀ old ∈ entries, old.key = bit.key →
      (clearOwned old (inOrder owned) &&& bit.access.mask ≠ 0 ↔
        old.access &&& bit.access.mask ≠ 0 ∧ bit ∉ owned) := by
    intro old _ hkey
    rw [clearOwned_iff]
    refine and_congr_right fun _ => ⟨fun h hb => ?_, fun h other hother hk ha => h ?_⟩
    · exact h bit (mem_inOrder.mpr hb) hkey.symm rfl
    · obtain ⟨kind, major, minor, access⟩ := other
      obtain ⟨kind', major', minor', access'⟩ := bit
      rw [hkey] at hk
      simp only [DevBit.key, Prod.mk.injEq, EntryKind.of.injEq, Int.natCast_inj] at hk ha
      obtain ⟨rfl, rfl, rfl⟩ := hk
      subst ha
      exact mem_inOrder.mp hother
  constructor
  · rintro ⟨entry, he, hk, ha⟩
    obtain ⟨-, old, hold, rfl⟩ := mem_withoutOwned.mp he
    by_cases hexact : old.exact = true
    · rw [if_pos hexact] at hk ha
      obtain ⟨ha, hb⟩ := (hkept old hold hk).mp ha
      exact ⟨⟨old, hold, hk, ha⟩, hb⟩
    · rw [if_neg hexact] at hk
      exact absurd (key_exact hk) hexact
  · rintro ⟨⟨old, hold, hk, ha⟩, hb⟩
    have ha := (hkept old hold hk).mpr ⟨ha, hb⟩
    refine ⟨{ old with access := clearOwned old (inOrder owned) }, mem_withoutOwned.mpr
      ⟨fun h => ?_, old, hold, by rw [if_pos (key_exact hk)]⟩, hk, ha⟩
    have h : clearOwned old (inOrder owned) = 0 := h
    rw [h] at ha
    exact ha (BitVec.zero_and)

/-- Wildcards are always baseline. -/
theorem wildcards_withoutOwned :
    covered (wildcards (withoutOwned entries owned)) bit = covered (wildcards entries) bit := by
  rw [Bool.eq_iff_iff]
  simp only [covered, wildcards, List.any_eq_true, List.mem_filter]
  constructor
  · rintro ⟨entry, ⟨he, hw⟩, hc⟩
    obtain ⟨-, old, hold, rfl⟩ := mem_withoutOwned.mp he
    by_cases hexact : old.exact = true
    · rw [if_pos hexact] at hw
      have hw : (!old.exact) = true := hw
      rw [hexact] at hw
      cases hw
    · rw [if_neg hexact] at hw hc
      exact ⟨old, ⟨hold, hw⟩, hc⟩
  · rintro ⟨entry, ⟨he, hw⟩, hc⟩
    refine ⟨entry, ⟨mem_withoutOwned.mpr ⟨fun h => ?_, entry, he, if_neg (by simpa using hw)⟩, hw⟩,
      hc⟩
    simp [ListEntry.covers, h] at hc

/-- The baseline: what the exact entries hold besides the owned bits, and the wildcards. -/
theorem covered_withoutOwned : covered (withoutOwned entries owned) bit = true ↔
    Holds entries bit ∧ bit ∉ owned ∨ covered (wildcards entries) bit = true := by
  rw [covered_iff, holds_withoutOwned, wildcards_withoutOwned]

end WithoutOwned

/-! ## Writes -/

/-- The rule is for the bit's device and has its access. -/
def ListEntry.Gives (rule : ListEntry) (bit : DevBit) : Prop :=
  rule.key = bit.key ∧ rule.access &&& bit.access.mask ≠ 0

theorem entry_gives {bit other : DevBit} : bit.entry.Gives other ↔ bit = other := by
  obtain ⟨kind, major, minor, access⟩ := bit
  obtain ⟨kind', major', minor', access'⟩ := other
  have hmask : access.mask &&& access'.mask ≠ 0 ↔ access = access' := by
    cases access <;> cases access' <;> decide
  simp only [ListEntry.Gives, DevBit.entry, ListEntry.key, DevBit.key, hmask, Prod.mk.injEq,
    EntryKind.of.injEq, Int.natCast_inj, DevBit.mk.injEq, and_assoc]

theorem entry_exact (bit : DevBit) : bit.entry.exact = true := @key_exact bit.entry bit rfl

theorem exact_congr {first second : ListEntry} (h : first.key = second.key) :
    first.exact = second.exact := by
  obtain ⟨kind, major, minor, access⟩ := first
  simp only [ListEntry.key, Prod.mk.injEq] at h
  obtain ⟨rfl, rfl, rfl⟩ := h
  rfl

theorem holds_cons {entry : ListEntry} {entries : List ListEntry} {bit : DevBit} :
    Holds (entry :: entries) bit ↔ entry.Gives bit ∨ Holds entries bit := by
  rw [Holds, List.exists_mem_cons_iff]
  rfl

theorem holds_allowEntry {rule : ListEntry} {entries : List ListEntry} {bit : DevBit} :
    Holds (allowEntry rule entries) bit ↔ Holds entries bit ∨ rule.Gives bit := by
  have hor : ∀ a b c : BitVec 3, (a ||| b) &&& c ≠ 0 ↔ a &&& c ≠ 0 ∨ b &&& c ≠ 0 := by decide
  induction entries with
  | nil => simp only [allowEntry, holds_cons, or_comm]
  | cons first rest ih =>
    rw [allowEntry]
    split
    next hkey =>
      rw [holds_cons, holds_cons, or_right_comm]
      refine or_congr_left ?_
      rw [ListEntry.Gives, ListEntry.Gives, ListEntry.Gives, hor, ← hkey]
      exact and_or_left
    next =>
      rw [holds_cons, holds_cons, or_assoc]
      exact or_congr_right ih

theorem holds_denyEntry {rule : ListEntry} {entries : List ListEntry} {bit : DevBit}
    (h : Distinct entries) :
    Holds (denyEntry rule entries) bit ↔ Holds entries bit ∧ ¬rule.Gives bit := by
  have hand : ∀ (a b : BitVec 3) (c : Access),
      (a &&& ~~~b) &&& c.mask ≠ 0 ↔ a &&& c.mask ≠ 0 ∧ ¬b &&& c.mask ≠ 0 := by
    intro a b c
    cases c <;> revert a b <;> decide
  induction h with
  | nil => simp [denyEntry, Holds]
  | @cons first rest hfirst hrest ih =>
    rw [denyEntry]
    split
    next hkey =>
      -- No other entry is for the device the rule is for.
      have hother : Holds rest bit → ¬rule.Gives bit := by
        rintro ⟨entry, he, hk, -⟩ ⟨hg, -⟩
        exact hfirst entry he (hkey.trans (hg.trans hk.symm))
      have hcut : ({ first with access := first.access &&& ~~~rule.access } : ListEntry).Gives bit ↔
          first.Gives bit ∧ ¬rule.Gives bit := by
        show first.key = bit.key ∧ _ ↔ _
        rw [hand, ListEntry.Gives, ListEntry.Gives, ← hkey]
        tauto
      rw [holds_cons]
      split
      next hzero =>
        have : ¬({ first with access := first.access &&& ~~~rule.access } : ListEntry).Gives
            bit := by
          rintro ⟨-, hg⟩
          rw [hzero] at hg
          exact hg BitVec.zero_and
        tauto
      next =>
        rw [holds_cons, hcut]
        tauto
    next hkey =>
      have hother : first.Gives bit → ¬rule.Gives bit :=
        fun hf hr => hkey (hf.1.trans hr.1.symm)
      rw [holds_cons, holds_cons]
      refine (or_congr_right ih).trans ?_
      tauto

theorem wildcards_cons (entry : ListEntry) (entries : List ListEntry) :
    wildcards (entry :: entries) =
      if entry.exact then wildcards entries else entry :: wildcards entries := by
  cases h : entry.exact <;> simp [wildcards, h]

/-- What a write does to the wildcards depends on them alone. -/
theorem wildcards_allowEntry {rule : ListEntry} {entries : List ListEntry} :
    wildcards (allowEntry rule entries) =
      if rule.exact then wildcards entries else allowEntry rule (wildcards entries) := by
  induction entries with
  | nil => rw [allowEntry, wildcards_cons]; rfl
  | cons first rest ih =>
    rw [allowEntry]
    split
    next hkey =>
      have hsame : ({ first with access := first.access ||| rule.access } : ListEntry).exact =
          first.exact :=
        rfl
      rw [wildcards_cons, wildcards_cons, hsame, exact_congr hkey]
      split
      next => rfl
      next => rw [allowEntry, if_pos hkey]
    next hkey =>
      rw [wildcards_cons, ih, wildcards_cons]
      by_cases hf : first.exact = true
      · rw [if_pos hf, if_pos hf]
      · rw [if_neg hf, if_neg hf, allowEntry, if_neg hkey]
        split <;> rfl

theorem wildcards_denyEntry {rule : ListEntry} {entries : List ListEntry} :
    wildcards (denyEntry rule entries) =
      if rule.exact then wildcards entries else denyEntry rule (wildcards entries) := by
  induction entries with
  | nil => simp [denyEntry, wildcards]
  | cons first rest ih =>
    rw [denyEntry]
    split
    next hkey =>
      have hsame : ({ first with access := first.access &&& ~~~rule.access } : ListEntry).exact =
          first.exact := rfl
      rw [wildcards_cons, exact_congr hkey]
      split
      next =>
        split
        next => rfl
        next => rw [denyEntry, if_pos hkey, if_pos ‹_›]
      next =>
        rw [wildcards_cons, hsame, exact_congr hkey]
        split
        next => rfl
        next => rw [denyEntry, if_pos hkey, if_neg ‹_›]
    next hkey =>
      rw [wildcards_cons, ih, wildcards_cons]
      by_cases hf : first.exact = true
      · rw [if_pos hf, if_pos hf]
      · rw [if_neg hf, if_neg hf, denyEntry, if_neg hkey]
        split <;> rfl

end V1
end Sda
