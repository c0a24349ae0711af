import DeviceAccess.Filter.Verdict

/-!
# What a program allows

A program is a wrapper of this daemon or it is not, and what a wrapper allows is a matter of its
rules and of what it wraps (`Allows`): the last rule about the request decides, and the original
when there is none. With allow rules only, that is "the original or one of the rules"
(`allows_wrapper`). What the programs of container runtimes allow is left open.

`Innermost` is the program underneath all wrappers. It is what the wrappers say, also where the
parser does not recognise them.
-/

namespace Sda
namespace Filter

open Asm

/-! ## The rules of a wrapper -/

/-- The rule the block was made of is about the request. -/
def RuleMatch.about (m : RuleMatch) (req : Request) : Bool :=
  acceptsNumber (m.deviceType.map DeviceType.code) (req.kind.setWidth 64) &&
    m.acceptsAccess req.access && m.major.all (req.major = ·) && m.minor.all (req.minor = ·)

theorem numberCheck_all {n : Int} (h : n ≤ u32Max) (asked : BitVec 32) :
    (numberCheck n).all (asked = ·) = numberMatches (some n) asked := by
  have hlt := asked.isLt
  rw [numberMatches, Option.any_some, numberCheck]
  by_cases hn : 0 ≤ n
  · obtain ⟨k, rfl⟩ := Int.eq_ofNat_of_zero_le hn
    have hk : k < 2 ^ 32 := by
      rw [u32Max] at h
      omega
    rw [if_pos hn, Option.all_some, decide_eq_false (by omega : ¬ (k : Int) < 0), Bool.false_or]
    apply decide_eq_decide.mpr
    rw [← BitVec.toNat_inj, BitVec.ofInt_natCast, BitVec.toNat_ofNat, Nat.mod_eq_of_lt hk]
    omega
  · rw [if_neg hn, decide_eq_true (by omega : n < 0)]
    rfl

private theorem about_eq {rule : DeviceRule} {m : RuleMatch} (h : ruleMatch rule = .ok m)
    (req : Request) :
    m.about req = rule.matches req := by
  obtain ⟨major, minor, -, hmaj, hmin, -, hmaj', hmin', -, hM, hm⟩ := ruleMatch_ok h
  rw [RuleMatch.about, DeviceRule.matches, acceptsKind_eq h, acceptsAccess_eq h, hmaj', hmin', hmaj,
    hmin, numberCheck_all hM, numberCheck_all hm]

/-- What the rules say is a matter of the blocks they are compiled to. -/
theorem lastMatch_eq {rules : List DeviceRule} {ms : List RuleMatch}
    (h : compile rules.reverse = .ok ms) (req : Request) :
    lastMatch rules req = (ms.find? (·.about req)).map RuleMatch.allow := by
  symm
  refine find_compiled h (fun rule _ m hm => about_eq hm req) fun m hall => ?_
  obtain ⟨h1, h2, h3, h4⟩ := RuleMatch.matchesAll_iff.mp hall
  simp [RuleMatch.about, RuleMatch.acceptsNumber, RuleMatch.acceptsAccess, h1, h2, h3, h4]

section Meaning

variable (sha256 : Bytes → Vector Byte 32)

/-- `raw` is a wrapper of this daemon around `original`. -/
def WrapperOf (rules : List DeviceRule) (nonce : BitVec 64) (original raw : Bytes) : Prop :=
  CanonicalProgram original ∧ emitOwned sha256 rules nonce original = .ok raw

/-- The program underneath all wrappers. -/
inductive Innermost : Bytes → Bytes → Prop
  | bare {raw : Bytes} : parseOwned sha256 raw = .ok none → Innermost raw raw
  | wrapper {rules : List DeviceRule} {nonce : BitVec 64} {original raw innermost : Bytes} :
      WrapperOf sha256 rules nonce original raw → Innermost original innermost →
      Innermost raw innermost

/-- `raw` allows the request, when `base` says what the programs allow that are no wrappers. -/
inductive Allows (base : Bytes → Request → Prop) : Bytes → Request → Prop
  | bare {raw : Bytes} {req : Request} :
      parseOwned sha256 raw = .ok none → base raw req → Allows base raw req
  | rule {rules : List DeviceRule} {nonce : BitVec 64} {original raw : Bytes} {req : Request} :
      WrapperOf sha256 rules nonce original raw → lastMatch rules req = some true →
      Allows base raw req
  | original {rules : List DeviceRule} {nonce : BitVec 64} {original raw : Bytes} {req : Request} :
      WrapperOf sha256 rules nonce original raw → lastMatch rules req = none →
      Allows base original req → Allows base raw req

/-- The wrappers that are recognised hold allow rules only. -/
inductive AllowOnly : Bytes → Prop
  | bare {raw : Bytes} : parseOwned sha256 raw = .ok none → AllowOnly raw
  | wrapper {raw : Bytes} {owned : OwnedProgram} : parseOwned sha256 raw = .ok (some owned) →
      (∀ rule ∈ owned.rules, rule.allow = true) → AllowOnly owned.original → AllowOnly raw

variable {sha256}

/-! ## What the bytes determine -/

section Wrapper

variable {rules rules' : List DeviceRule} {nonce nonce' : BitVec 64}
  {original original' raw : Bytes}

theorem WrapperOf.wraps (h : WrapperOf sha256 rules nonce original raw) :
    ∃ ms, compile rules.reverse = .ok ms ∧ Wraps sha256 ms nonce original raw :=
  wraps_of_emitOwned h.1 h.2

/-- The bytes of a wrapper determine its nonce, its original and what its rules say. -/
theorem WrapperOf.unique (h : WrapperOf sha256 rules nonce original raw)
    (h' : WrapperOf sha256 rules' nonce' original' raw) :
    nonce = nonce' ∧ original = original' ∧ ∀ req, lastMatch rules req = lastMatch rules' req := by
  obtain ⟨ms, hc, hw⟩ := h.wraps
  obtain ⟨ms', hc', hw'⟩ := h'.wraps
  obtain ⟨rfl, hn, ho⟩ := hw.injective hw'
  exact ⟨hn, ho, fun req => by rw [lastMatch_eq hc, lastMatch_eq hc']⟩

/-- A wrapper is never taken for a program of a container runtime. -/
theorem WrapperOf.parseOwned_ne (h : WrapperOf sha256 rules nonce original raw) :
    parseOwned sha256 raw ≠ .ok none := by
  obtain ⟨ms, -, hw⟩ := h.wraps
  by_cases hfit : trailerIndex ms ≤ u32Max
  · by_cases hs : ∀ m ∈ ms, m.Small
    · rw [parseOwned_small hw hfit hs]; nofun
    · rw [parseOwned_large hw hfit hs]; nofun
  · rw [parseOwned_unfit hw (Nat.lt_of_not_le hfit)]; nofun

end Wrapper

theorem WrapperOf.of_parseOwned {raw : Bytes} {owned : OwnedProgram}
    (h : parseOwned sha256 raw = .ok (some owned)) :
    WrapperOf sha256 owned.rules owned.nonce owned.original raw := by
  obtain ⟨-, -, hemit, hc, -⟩ := accepted_of_parseOwned h
  exact ⟨hc, hemit⟩

/-! ## The program underneath -/

theorem Innermost.of_bare {raw innermost : Bytes} (hb : parseOwned sha256 raw = .ok none)
    (h : Innermost sha256 raw innermost) : innermost = raw := by
  cases h with
  | bare => rfl
  | wrapper hw _ => exact absurd hb hw.parseOwned_ne

theorem Innermost.of_wrapper {rules : List DeviceRule} {nonce : BitVec 64}
    {original raw innermost : Bytes} (hw : WrapperOf sha256 rules nonce original raw)
    (h : Innermost sha256 raw innermost) : Innermost sha256 original innermost := by
  cases h with
  | bare hb => exact absurd hb hw.parseOwned_ne
  | wrapper hw' h =>
    obtain ⟨-, rfl, -⟩ := hw.unique hw'
    exact h

theorem Innermost.unique {raw a b : Bytes} (h : Innermost sha256 raw a)
    (h' : Innermost sha256 raw b) : a = b := by
  induction h with
  | bare hb => exact (h'.of_bare hb).symm
  | wrapper hw _ ih => exact ih (h'.of_wrapper hw)

theorem innermost_wrapLayers {original : Bytes} (hc : CanonicalProgram original)
    (hn : parseOwned sha256 original = .ok none) {layers : List Layer} {raw : Bytes}
    (h : wrapLayers sha256 layers original = .ok raw) :
    CanonicalProgram raw ∧ Innermost sha256 raw original := by
  induction layers generalizing raw with
  | nil => cases h; exact ⟨hc, .bare hn⟩
  | cons layer layers ih =>
    cases hinner : wrapLayers sha256 layers original with
    | error e => simp only [wrapLayers, hinner, bind, Except.bind] at h; cases h
    | ok inner =>
      simp only [wrapLayers, hinner, bind, Except.bind] at h
      obtain ⟨hci, hi⟩ := ih hinner
      obtain ⟨ms, -, hw⟩ := wraps_of_emitOwned hci h
      exact ⟨hw.canonical_raw, .wrapper ⟨hci, h⟩ hi⟩

/-- What the parser strips off are wrappers. -/
theorem innermost_of_parse {raw : Bytes} {owned : OwnedProgram}
    (h : parseOwnedInnermost sha256 raw = .ok (some owned)) :
    Innermost sha256 raw owned.original := by
  obtain ⟨outer, hp, hi, -⟩ := parseOwned_of_innermost_some h
  have hw := WrapperOf.of_parseOwned hp
  obtain ⟨hco, hn, layers, -, hwrap⟩ := wrapLayers_of_innermostFrom hw.1 hi
  exact .wrapper hw (innermost_wrapLayers hco hn hwrap).2

/-! ## What wrappers allow -/

section Allows

variable {base : Bytes → Request → Prop} {raw : Bytes} {req : Request}

theorem allows_bare (hb : parseOwned sha256 raw = .ok none) :
    Allows sha256 base raw req ↔ base raw req := by
  constructor
  · intro h
    cases h with
    | bare _ h => exact h
    | rule hw _ => exact absurd hb hw.parseOwned_ne
    | original hw _ _ => exact absurd hb hw.parseOwned_ne
  · exact .bare hb

theorem allows_wrapperOf {rules : List DeviceRule} {nonce : BitVec 64} {original : Bytes}
    (hw : WrapperOf sha256 rules nonce original raw) :
    Allows sha256 base raw req ↔ lastMatch rules req = some true ∨
      lastMatch rules req = none ∧ Allows sha256 base original req := by
  constructor
  · intro h
    cases h with
    | bare hb _ => exact absurd hb hw.parseOwned_ne
    | rule hw' h =>
      obtain ⟨-, -, hm⟩ := hw.unique hw'
      exact .inl ((hm req).trans h)
    | original hw' h ho =>
      obtain ⟨-, rfl, hm⟩ := hw.unique hw'
      exact .inr ⟨(hm req).trans h, ho⟩
  · rintro (h | ⟨h, ho⟩)
    · exact .rule hw h
    · exact .original hw h ho

theorem lastMatch_of_allow {rules : List DeviceRule} (h : ∀ rule ∈ rules, rule.allow = true) :
    (lastMatch rules req = some true ↔ ∃ rule ∈ rules, rule.matches req = true) ∧
      (lastMatch rules req = none ↔ ¬ ∃ rule ∈ rules, rule.matches req = true) := by
  rw [lastMatch]
  cases hf : rules.reverse.find? (·.matches req) with
  | none =>
    have hno : ¬ ∃ rule ∈ rules, rule.matches req = true := by
      rintro ⟨rule, hr, hm⟩
      exact List.find?_eq_none.mp hf rule (List.mem_reverse.mpr hr) hm
    simp [hno]
  | some rule =>
    have hr := List.mem_reverse.mp (List.mem_of_find?_eq_some hf)
    have hm := List.find?_some hf
    have hyes : ∃ rule ∈ rules, rule.matches req = true := ⟨rule, hr, hm⟩
    simp [hyes, h rule hr]

/-- With allow rules only, a wrapper allows what its original or one of its rules allows. -/
theorem allows_wrapper {rules : List DeviceRule} {nonce : BitVec 64} {original : Bytes}
    (hw : WrapperOf sha256 rules nonce original raw) (h : ∀ rule ∈ rules, rule.allow = true) :
    Allows sha256 base raw req ↔
      Allows sha256 base original req ∨ ∃ rule ∈ rules, rule.matches req = true := by
  obtain ⟨hsome, hnone⟩ := @lastMatch_of_allow req rules h
  rw [allows_wrapperOf hw, hsome, hnone]
  by_cases hm : ∃ rule ∈ rules, rule.matches req = true <;> simp [hm]

/-- Wrappers with allow rules only never take away what the innermost original allows. -/
theorem AllowOnly.allows (ho : AllowOnly sha256 raw) {innermost : Bytes}
    (hi : Innermost sha256 raw innermost) (h : Allows sha256 base innermost req) :
    Allows sha256 base raw req := by
  induction ho with
  | bare hb => rwa [hi.of_bare hb] at h
  | wrapper hp hrules _ ih =>
    have hw := WrapperOf.of_parseOwned hp
    exact (allows_wrapper hw hrules).mpr (.inl (ih (hi.of_wrapper hw)))

end Allows

end Meaning
end Filter
end Sda
