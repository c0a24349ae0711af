import DeviceAccess.V1.Changes

/-!
# The baseline and the ledger stay exact

As long as nobody else writes, the owned bits are those the initial list does not cover, and the
exact entries hold the initial bits and the owned ones (`Split.Exact`). Every change of every pass
keeps that, so it holds after any number of passes, with any of their file calls failing.
-/

namespace Sda
namespace V1

open Sda.Filter
open V2 (Identity)

/-! ## What rules ask for -/

/-- Some rule is for the bit's device and has the letter of its access. -/
def Asks (rules : List DeviceRule) (bit : DevBit) : Prop :=
  ∃ rule ∈ rules, rule.kind = letter bit.kind ∧ rule.major = some (bit.major : Int) ∧
    rule.minor = some (bit.minor : Int) ∧ bit.access.letter ∈ rule.access.toList

/-- A property that each step adds to is that of the start or of one of the steps. -/
theorem foldlM_ok_or {α β ε : Type} {f : β → α → Except ε β} {P : β → Prop} {Q : α → Prop}
    (hstep : ∀ b a b', f b a = .ok b' → (P b' ↔ P b ∨ Q a)) {l : List α} {b b' : β}
    (h : l.foldlM f b = .ok b') : P b' ↔ P b ∨ ∃ a ∈ l, Q a := by
  induction l generalizing b with
  | nil => cases h; simp
  | cons a rest ih =>
    rw [List.foldlM_cons] at h
    cases hf : f b a with
    | error e => rw [hf] at h; cases h
    | ok b₁ =>
      rw [hf] at h
      rw [ih h, hstep b a b₁ hf, List.exists_mem_cons_iff, or_assoc]

theorem parseAccess_ok {letters : List Char} {mask : BitVec 3} (h : parseAccess letters = .ok mask)
    (access : Access) : mask &&& access.mask ≠ 0 ↔ access.letter ∈ letters := by
  have hor : ∀ (mask : BitVec 3) (first second : Access), (mask ||| first.mask) &&&
    second.mask ≠ 0 ↔
      mask &&& second.mask ≠ 0 ∨ first = second := by
    intro mask first second
    cases first <;> cases second <;> revert mask <;> decide
  have hletter : ∀ first second : Access, first = second ↔ first.letter = second.letter := by
    intro first second
    cases first <;> cases second <;> decide
  rw [parseAccess] at h
  refine (foldlM_ok_or (P := (· &&& access.mask ≠ 0)) (Q := (· = access.letter)) ?_ h).trans ?_
  · intro mask letter mask' hstep
    split at hstep
    next hr => cases hstep; rw [hor, hletter, hr]; rfl
    next =>
      split at hstep
      next hw => cases hstep; rw [hor, hletter, hw]; rfl
      next =>
        split at hstep
        next hm => cases hstep; rw [hor, hletter, hm]; rfl
        next => cases hstep
  · simp

private theorem mem_foldl_insert {more : List DevBit} {bits : Finset DevBit} {bit : DevBit} :
    bit ∈ more.foldl (fun bits bit => insert bit bits) bits ↔ bit ∈ bits ∨ bit ∈ more := by
  induction more generalizing bits with
  | nil => simp
  | cons first rest ih =>
    rw [List.foldl_cons, ih, Finset.mem_insert, List.mem_cons, or_assoc, or_left_comm]

theorem ruleKind_iff {kind : String} {type : DeviceType} :
    ruleKind kind = some type ↔ kind = letter type := by
  unfold ruleKind
  split
  next h => subst h; cases type <;> decide
  next hc =>
    split
    next h => subst h; cases type <;> decide
    next hb => cases type <;> simp [letter, hb, hc]

theorem expandRule_ok {rule : DeviceRule} {bits : List DevBit} (h : expandRule rule = .ok bits)
    (bit : DevBit) : bit ∈ bits ↔ rule.kind = letter bit.kind ∧
    rule.major = some (bit.major : Int) ∧
      rule.minor = some (bit.minor : Int) ∧ bit.access.letter ∈ rule.access.toList := by
  obtain ⟨allow, kind, major, minor, access⟩ := rule
  unfold expandRule at h
  split at h
  next => cases h
  next =>
    dsimp only at h
    split at h
    next major minor =>
      split at h
      next => cases h
      next type htype =>
        split at h
        next => cases h
        next hneg =>
          cases haccess : parseAccess access.toList with
          | error e => rw [haccess] at h; cases h
          | ok mask =>
            rw [haccess] at h
            obtain rfl := Except.ok.inj h
            simp only [Bool.or_eq_true, decide_eq_true_eq, not_or, not_lt] at hneg
            obtain ⟨hmajor, hminor⟩ := hneg
            obtain rfl := ruleKind_iff.mp htype
            have hall : ∀ one : Access, one ∈ accessBits := by intro one; cases one <;> decide
            have hkind : ∀ first second : DeviceType, letter first = letter second ↔
                first = second := by
              intro first second
              cases first <;> cases second <;> decide
            obtain ⟨type', major', minor', access'⟩ := bit
            simp only [List.mem_map, List.mem_filter, hall, true_and, bne_iff_ne, DevBit.mk.injEq,
              parseAccess_ok haccess, hkind, Option.some.injEq]
            constructor
            · rintro ⟨one, hone, rfl, rfl, rfl, rfl⟩
              exact ⟨rfl, (Int.toNat_of_nonneg hmajor).symm,
                (Int.toNat_of_nonneg hminor).symm, hone⟩
            · rintro ⟨rfl, rfl, rfl, hone⟩
              exact ⟨access', hone, rfl, rfl, rfl, rfl⟩
    next => cases h

theorem expandRules_ok {rules : List DeviceRule} {desired : Finset DevBit}
    (h : expandRules rules = .ok desired) (bit : DevBit) : bit ∈ desired ↔ Asks rules bit := by
  rw [expandRules] at h
  refine (foldlM_ok_or (P := (bit ∈ ·)) ?_ h).trans (or_iff_right (Finset.notMem_empty bit))
  intro bits rule bits' hstep
  cases hrule : expandRule rule with
  | error e => rw [hrule] at hstep; cases hstep
  | ok more =>
    rw [hrule] at hstep
    cases hstep
    rw [mem_foldl_insert, expandRule_ok hrule]

/-! ## The invariant -/

namespace DevicesList

theorem effective_iff {list : DevicesList} {bit : DevBit} : list.Effective bit ↔
    Holds list.entries bit ∨ covered (wildcards list.entries) bit = true := covered_iff

theorem holds_allow {list : DevicesList} {bit other : DevBit} :
    Holds (list.allow bit.entry).entries other ↔ Holds list.entries other ∨ bit = other := by
  rw [allow, holds_allowEntry, entry_gives]

theorem holds_deny {list : DevicesList} {bit other : DevBit} :
    Holds (list.deny bit.entry).entries other ↔ Holds list.entries other ∧ bit ≠ other := by
  rw [deny, holds_denyEntry list.distinct, entry_gives]

theorem wildcards_allow {list : DevicesList} {bit : DevBit} :
    wildcards (list.allow bit.entry).entries = wildcards list.entries := by
  rw [allow, wildcards_allowEntry, if_pos (entry_exact bit)]

theorem wildcards_deny {list : DevicesList} {bit : DevBit} :
    wildcards (list.deny bit.entry).entries = wildcards list.entries := by
  rw [deny, wildcards_denyEntry, if_pos (entry_exact bit)]

end DevicesList

/-- The exact entries hold the bits of `initial` and the owned ones, which `initial` does not cover.
-/
structure Split.Exact (initial : DevicesList) (s : Split) : Prop where
  wildcards : wildcards s.list.entries = V1.wildcards initial.entries
  holds : ∀ bit, Holds s.list.entries bit ↔ Holds initial.entries bit ∨ bit ∈ s.owned
  apart : ∀ bit ∈ s.owned, ¬initial.Effective bit

namespace Split.Exact

variable {initial : DevicesList} {s s' start : Split} {desired : Finset DevBit} {bit : DevBit}

theorem effective (h : s.Exact initial) :
    s.list.Effective bit ↔ initial.Effective bit ∨ bit ∈ s.owned := by
  rw [DevicesList.effective_iff, DevicesList.effective_iff, h.holds, h.wildcards, or_right_comm]

/-- The baseline is the initial list. -/
theorem baseline (h : s.Exact initial) : covered s.baseline bit = true ↔ initial.Effective bit := by
  rw [Split.baseline, covered_withoutOwned, h.holds, h.wildcards, DevicesList.effective_iff]
  constructor
  · rintro (⟨hb | hb, hno⟩ | hw)
    · exact .inl hb
    · exact absurd hb hno
    · exact .inr hw
  · rintro (hb | hw)
    · exact .inl ⟨.inl hb, fun ho => h.apart bit ho (DevicesList.effective_iff.mpr (.inl hb))⟩
    · exact .inr hw

/-- One change keeps the split exact, as long as the bits that stay owned are. -/
theorem change (hstart : start.Exact initial) (h : s.Exact initial)
    (hkept : ∀ bit ∈ start.owned, bit ∈ start.ownedNew desired → bit ∈ s.owned)
    (hchange : Change start desired s s') : s'.Exact initial ∧
      ∀ bit ∈ start.owned, bit ∈ start.ownedNew desired → bit ∈ s'.owned := by
  have hnew : ∀ bit ∈ start.ownedNew desired, ¬initial.Effective bit := by
    intro bit hb
    rw [← hstart.baseline, (Split.mem_ownedNew.mp hb).2]
    exact Bool.false_ne_true
  cases hchange with
  | forget old covered => exact absurd (hstart.baseline.mp covered) (hstart.apart _ old)
  | @revoke bit old unwanted uncovered =>
    refine ⟨⟨DevicesList.wildcards_deny.trans h.wildcards, fun other => ?_,
      fun other ho => h.apart other (Finset.mem_of_mem_erase ho)⟩, fun other ho hn => ?_⟩
    · rw [DevicesList.holds_deny, h.holds, Finset.mem_erase]
      constructor
      · rintro ⟨hb | hb, hne⟩
        · exact .inl hb
        · exact .inr ⟨hne.symm, hb⟩
      · rintro (hb | ⟨hne, hb⟩)
        · refine ⟨.inl hb, ?_⟩
          rintro rfl
          exact hstart.apart bit old (DevicesList.effective_iff.mpr (.inl hb))
        · exact ⟨.inr hb, hne.symm⟩
    · refine Finset.mem_erase.mpr ⟨?_, hkept other ho hn⟩
      rintro rfl
      exact unwanted hn
  | @keep bit new effective =>
    have hold : bit ∈ start.owned := (hstart.effective.mp effective).resolve_left (hnew bit new)
    rw [Finset.insert_eq_of_mem (hkept bit hold new)]
    exact ⟨h, hkept⟩
  | @grant bit new ineffective =>
    refine ⟨⟨DevicesList.wildcards_allow.trans h.wildcards, fun other => ?_, fun other ho => ?_⟩,
      fun other ho hn => Finset.mem_insert_of_mem (hkept other ho hn)⟩
    · rw [DevicesList.holds_allow, h.holds, Finset.mem_insert, or_assoc, or_comm (b := bit = other),
        eq_comm]
    · rcases Finset.mem_insert.mp ho with rfl | ho
      · exact hnew _ new
      · exact h.apart other ho

/-- Changes keep the split exact, and what was owned and is asked for stays owned. -/
theorem changes_kept (hstart : start.Exact initial) (h : Changes start desired start s) :
    s.Exact initial ∧ ∀ bit ∈ start.owned, bit ∈ start.ownedNew desired → bit ∈ s.owned := by
  induction h with
  | refl => exact ⟨hstart, fun bit hb _ => hb⟩
  | tail _ hchange ih => exact hstart.change ih.1 ih.2 hchange

theorem changes (hstart : start.Exact initial) (h : Changes start desired start s) :
    s.Exact initial :=
  (hstart.changes_kept h).1

end Split.Exact

/-! ## Passes -/

section Passes

variable {env : Env} {id : Identity} {w₀ w w' : World}

theorem setDeviceRules_keeps_exact {initial : DevicesList} {rules : List DeviceRule}
    {r : Except Error Unit} (h : (w.split id).Exact initial)
    (hrun : setDeviceRules env id rules w = (r, w')) : (w'.split id).Exact initial := by
  obtain ⟨hsame, -⟩ | ⟨desired, -, hchanges, -⟩ := setDeviceRules_inv hrun
  · rw [hsame]
    exact h
  · exact h.changes hchanges

/-- Passes on one cgroup, one after another, whatever they return. -/
inductive Passes (env : Env) (id : Identity) : World → World → Prop where
  | refl {w : World} : Passes env id w w
  | step {w w₁ w₂ : World} {rules : List DeviceRule} {r : Except Error Unit}
      (passes : Passes env id w w₁) (run : setDeviceRules env id rules w₁ = (r, w₂)) :
      Passes env id w w₂

theorem Passes.exact {initial : DevicesList} (h : Passes env id w w')
    (hw : (w.split id).Exact initial) :
    (w'.split id).Exact initial := by
  induction h with
  | refl => exact hw
  | step _ hrun ih => exact setDeviceRules_keeps_exact ih hrun

theorem split_exact_of_empty (h : w.ledger.owned id = ∅) : (w.split id).Exact w.list where
  wildcards := rfl
  holds bit := by simp [World.split, h]
  apart bit hb := by simp [World.split, h] at hb

end Passes

/-- **The baseline and the ledger are exact after every pass of a run.** The run starts with nothing
owned in the cgroup. After each pass, whatever failed in it or before it, what the initial list
covers is covered, and the ledger is exactly what is effective besides. After a pass that returned
Ok, exactly the initial list and the rules are effective. -/
theorem setDeviceRules_run_exact (env : Env) (id : Identity) (w₀ w w' : World)
    (rules : List DeviceRule) (r : Except Error Unit) (hempty : w₀.ledger.owned id = ∅)
    (hpasses : Passes env id w₀ w) (hrun : setDeviceRules env id rules w = (r, w')) :
    (∀ bit, w₀.list.Effective bit → w'.list.Effective bit) ∧
    (∀ bit, bit ∈ w'.ledger.owned id ↔ w'.list.Effective bit ∧ ¬w₀.list.Effective bit) ∧
    (r = .ok () → ∀ bit, w'.list.Effective bit ↔ w₀.list.Effective bit ∨ Asks rules bit) := by
  have hbefore := hpasses.exact (split_exact_of_empty hempty)
  have hafter := setDeviceRules_keeps_exact hbefore hrun
  have heffective : ∀ bit, w'.list.Effective bit ↔ w₀.list.Effective bit ∨
      bit ∈ w'.ledger.owned id :=
    fun _ => hafter.effective
  refine ⟨fun bit hb => (heffective bit).mpr (.inl hb), fun bit => ?_, fun hok bit => ?_⟩
  · rw [heffective]
    constructor
    · exact fun hb => ⟨.inr hb, hafter.apart bit hb⟩
    · exact fun ⟨hb, hno⟩ => hb.resolve_left hno
  · obtain ⟨-, e, he⟩ | ⟨desired, hdesired, -, howned⟩ := setDeviceRules_inv hrun
    · rw [he] at hok
      cases hok
    have hnew : bit ∈ w'.ledger.owned id ↔ Asks rules bit ∧ ¬w₀.list.Effective bit := by
      rw [howned hok, Split.mem_ownedNew, expandRules_ok hdesired,
        ← @Split.Exact.baseline _ _ bit hbefore, Bool.not_eq_true]
    rw [heffective, hnew]
    by_cases hinitial : w₀.list.Effective bit
    · exact iff_of_true (.inl hinitial) (.inl hinitial)
    · exact or_congr_right (and_iff_left hinitial)

/-! ## A run -/

/-- Every file call succeeds. -/
def quietEnv : Env := ⟨fun _ => none⟩

def sampleId : Identity := ⟨"/sys/fs/cgroup/devices/docker/c1", 1⟩

/-- `c 1:* m` and `c 10:200 r`. -/
def sampleList : DevicesList :=
  ⟨[⟨.of .char, 1, wildcard, 4⟩, ⟨.of .char, 10, 200, 1⟩], by unfold Distinct; decide⟩

def sampleWorld : World := ⟨sampleList, fun _ => ∅, 0, []⟩

def tunRule : DeviceRule := ⟨true, "c", some 10, some 200, "rwm"⟩

/-- A grant that overlaps an entry of the runtime. -/
theorem setDeviceRules_run_exact_sample :
    ∃ w', setDeviceRules quietEnv sampleId [tunRule] sampleWorld = (.ok (), w') ∧
      ∀ bit, w'.list.Effective bit ↔ sampleWorld.list.Effective bit ∨ Asks [tunRule] bit := by
  obtain ⟨r, w', h⟩ := (setDeviceRules quietEnv sampleId [tunRule]).exists_run sampleWorld
  have hok : (setDeviceRules quietEnv sampleId [tunRule] sampleWorld).1.isOk = true := by
    decide +kernel
  rw [h] at hok
  cases r with
  | error e => cases hok
  | ok =>
    exact ⟨w', h, (setDeviceRules_run_exact quietEnv sampleId sampleWorld sampleWorld w' [tunRule]
      (.ok ()) rfl .refl h).2.2 rfl⟩

end V1
end Sda
