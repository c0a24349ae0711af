import DeviceAccess.Filter.OwnedLemmas

/-!
# Rules read back

What becomes of a rule that is emitted and parsed again, as a function of the rule:
`readBackRules` is the rules a wrapper for `rules` is read back with. Every rule before one that
matches everything is dropped, negative numbers come back as the wildcard -1 and the letters of the
access in the order `rwm` (`compile_readBack`).
-/

namespace Sda
namespace Filter

open Asm

/-- A number that matches every number. -/
def isWildcard (number : Option Int) : Bool := number.any (· < 0)

/-- A rule that matches every request. -/
def DeviceRule.matchesEverything (rule : DeviceRule) : Bool :=
  rule.kind = "a" && isWildcard rule.major && isWildcard rule.minor &&
    ['r', 'w', 'm'].all (· ∈ rule.access.toList)

/-- The rules that no later rule hides. -/
def keptRules : List DeviceRule → List DeviceRule
  | [] => []
  | rule :: rest => if rest.any DeviceRule.matchesEverything then keptRules rest else rule :: rest

/-- A number as it is read back: every negative one is the wildcard. -/
def readBackNumber (number : Option Int) : Option Int :=
  number.map fun n => if n < 0 then wildcard else n

/-- A rule as it is read back: letters in the order `rwm`, each once. -/
def DeviceRule.readBack (rule : DeviceRule) : DeviceRule where
  allow := rule.allow
  kind := rule.kind
  major := readBackNumber rule.major
  minor := readBackNumber rule.minor
  access := String.ofList (['r', 'w', 'm'].filter (· ∈ rule.access.toList))

/-- The rules a wrapper for `rules` is read back with. -/
def readBackRules (rules : List DeviceRule) : List DeviceRule :=
  (keptRules rules).map DeviceRule.readBack

/-- Both numbers are wildcards or below 2^31, as those of every device the kernel knows. -/
def DeviceRule.SmallNumbers (rule : DeviceRule) : Prop :=
  (∀ n ∈ rule.major, n < 2 ^ 31) ∧ ∀ n ∈ rule.minor, n < 2 ^ 31

/-- The mask of three letters that are there or not. -/
def lettersMask (read write mknod : Bool) : BitVec 3 :=
  (if read then accRead else 0) ||| (if write then accWrite else 0) |||
    (if mknod then accMknod else 0)

theorem accessMask_eq {access mask : BitVec 3} {letters : List Char}
    (h : accessMask access letters = .ok mask) :
    mask = access ||| lettersMask ('r' ∈ letters) ('w' ∈ letters) ('m' ∈ letters) := by
  have key : ∀ (access : BitVec 3) (r w m : Bool),
      (access ||| accRead) ||| lettersMask r w m = access ||| lettersMask true w m ∧
      (access ||| accWrite) ||| lettersMask r w m = access ||| lettersMask r true m ∧
      (access ||| accMknod) ||| lettersMask r w m = access ||| lettersMask r w true := by decide
  induction letters generalizing access with
  | nil =>
    cases h
    simp [lettersMask]
  | cons letter rest ih =>
    simp only [accessMask, accessBit] at h
    by_cases hr : letter = 'r'
    · rw [if_pos hr] at h
      rw [ih h, (key ..).1, hr]
      simp
    by_cases hw : letter = 'w'
    · rw [if_neg hr, if_pos hw] at h
      rw [ih h, (key ..).2.1, hw]
      simp
    by_cases hm : letter = 'm'
    · rw [if_neg hr, if_neg hw, if_pos hm] at h
      rw [ih h, (key ..).2.2, hm]
      simp
    · rw [if_neg hr, if_neg hw, if_neg hm] at h
      cases h

/-- What a rule that was accepted has been read as. -/
theorem ruleMatch_ok {rule : DeviceRule} {m : RuleMatch} (h : ruleMatch rule = .ok m) :
    ∃ major minor, kindType rule.kind = .ok m.deviceType ∧ rule.major = some major ∧
      rule.minor = some minor ∧ accessMask 0 rule.access.toList = .ok m.access ∧
        m.major = numberCheck major ∧ m.minor = numberCheck minor ∧ m.allow = rule.allow ∧
        major ≤ u32Max ∧ minor ≤ u32Max := by
  obtain ⟨allow, kind, major, minor, access⟩ := rule
  rw [ruleMatch] at h
  cases hk : kindType kind with
  | error e => simp only [hk, bind, Except.bind] at h; cases h
  | ok type =>
    cases major with
    | none => simp only [hk, bind, Except.bind, Option.elim] at h; cases h
    | some major =>
      cases minor with
      | none => simp only [hk, bind, Except.bind, Option.elim] at h; cases h
      | some minor =>
        simp only [hk, bind, Except.bind, Option.elim] at h
        split at h
        · cases h
        · rename_i hmajor
          split at h
          · cases h
          · rename_i hminor
            cases ha : accessMask 0 access.toList with
            | error e => rw [ha] at h; cases h
            | ok mask =>
              rw [ha] at h
              cases h
              exact ⟨major, minor, rfl, rfl, rfl, rfl, rfl, rfl, rfl, Int.not_lt.mp hmajor,
                Int.not_lt.mp hminor⟩

theorem toInt_ofInt_small {n : Int} (h : 0 ≤ n) (h' : n < 2 ^ 31) :
    (BitVec.ofInt 32 n).toInt = n := by
  rw [BitVec.toInt_ofInt, Int.bmod_eq_of_le_mul_two] <;> omega

theorem numberCheck_small {n : Int} (h : n < 2 ^ 31) : ∀ v ∈ numberCheck n, v.msb = false := by
  intro v hv
  rw [numberCheck] at hv
  split at hv
  · cases hv
    rename_i hn
    have := toInt_ofInt_small hn h
    cases hm : (BitVec.ofInt 32 n).msb with
    | false => rfl
    | true =>
      have hlt := BitVec.toInt_neg_of_msb_true hm
      omega
  · cases hv

/-- A checked number has no sign bit exactly when it is below 2^31. -/
theorem numberCheck_small_iff {n : Int} (h : n ≤ u32Max) :
    (∀ v ∈ numberCheck n, v.msb = false) ↔ n < 2 ^ 31 := by
  refine ⟨fun hv => ?_, numberCheck_small⟩
  by_cases hn : 0 ≤ n
  · have hmsb := hv (BitVec.ofInt 32 n) (by rw [numberCheck, if_pos hn]; rfl)
    rw [BitVec.msb_eq_decide, decide_eq_false_iff_not, BitVec.toNat_ofInt] at hmsb
    rw [u32Max] at h
    omega
  · omega

/-- A number below 2^31 is read back as it was, a negative one as the wildcard. -/
theorem numberCheck_readBack {n : Int} (h : n < 2 ^ 31) :
    some (((numberCheck n).map (BitVec.signExtend 64)).elim wildcard BitVec.toInt) =
      readBackNumber (some n) := by
  rw [numberCheck]
  by_cases hn : 0 ≤ n
  · have hv : ((BitVec.ofInt 32 n).signExtend 64).toInt = (BitVec.ofInt 32 n).toInt :=
      BitVec.toInt_signExtend_of_le (by decide)
    rw [if_pos hn, Option.map_some, Option.elim_some, hv, toInt_ofInt_small hn h, readBackNumber,
      Option.map_some, if_neg (by omega)]
  · rw [if_neg hn, Option.map_none, Option.elim_none, readBackNumber, Option.map_some,
      if_pos (by omega)]

theorem kindType_ok {kind : String} {type : Option DeviceType} (h : kindType kind = .ok type) :
    kind = kindName type := by
  rw [kindType] at h
  split at h
  · cases h; assumption
  · split at h
    · cases h; assumption
    · split at h
      · cases h; assumption
      · cases h

theorem access_of_ruleMatch {rule : DeviceRule} {m : RuleMatch} (h : ruleMatch rule = .ok m) :
    m.access = lettersMask ('r' ∈ rule.access.toList) ('w' ∈ rule.access.toList)
      ('m' ∈ rule.access.toList) := by
  obtain ⟨-, -, -, -, -, ha, -⟩ := ruleMatch_ok h
  have hmask := accessMask_eq ha
  rwa [show ∀ a : BitVec 3, 0 ||| a = a by decide] at hmask

/-- A block does without an access check when its rule has all the letters. -/
theorem hasAccess_of_ruleMatch {rule : DeviceRule} {m : RuleMatch} (h : ruleMatch rule = .ok m) :
    (!m.hasAccess) = ['r', 'w', 'm'].all (· ∈ rule.access.toList) := by
  have key : ∀ r w k : Bool, (!decide (lettersMask r w k ≠ accAll)) =
      (r && (w && (k && true))) := by
    decide
  rw [RuleMatch.hasAccess, access_of_ruleMatch h, key, List.all_cons, List.all_cons, List.all_cons,
    List.all_nil]

/-- The rule of the block of an accepted rule. -/
theorem rule_of_ruleMatch {rule : DeviceRule} {m : RuleMatch} (h : ruleMatch rule = .ok m)
    (hs : rule.SmallNumbers) : m.rule = rule.readBack ∧ m.Small := by
  obtain ⟨major, minor, hk, hmaj, hmin, -, hmaj', hmin', hallow, -⟩ := ruleMatch_ok h
  have hM := hs.1 major hmaj
  have hm := hs.2 minor hmin
  have haccess : (if m.hasAccess then some ((m.access.setWidth 32).signExtend 64) else none).elim
      "rwm" bpfAccessString =
        String.ofList (['r', 'w', 'm'].filter (· ∈ rule.access.toList)) := by
    have key : ∀ r w k : Bool, (if lettersMask r w k ≠ accAll then
        some (((lettersMask r w k).setWidth 32).signExtend 64) else none).elim "rwm"
          bpfAccessString =
        String.ofList ((if r then ['r'] else []) ++ (if w then ['w'] else []) ++
          (if k then ['m'] else [])) := by decide
    have hfilter : ['r', 'w', 'm'].filter (· ∈ rule.access.toList) =
        (if 'r' ∈ rule.access.toList then ['r'] else []) ++
          (if 'w' ∈ rule.access.toList then ['w'] else []) ++
          (if 'm' ∈ rule.access.toList then ['m'] else []) := by
      simp only [List.filter_cons, List.filter_nil, decide_eq_true_eq]
      split <;> split <;> split <;> rfl
    have := key ('r' ∈ rule.access.toList) ('w' ∈ rule.access.toList) ('m' ∈ rule.access.toList)
    rw [hfilter, RuleMatch.hasAccess, access_of_ruleMatch h]
    simpa using this
  refine ⟨?_, ?_, ?_⟩
  · rw [RuleMatch.rule, BlockFields.rule, DeviceRule.readBack]
    simp only [RuleMatch.fields, hmaj', hmin', numberCheck_readBack hM, numberCheck_readBack hm,
      haccess, hallow, hmaj, hmin, ← kindType_ok hk]
  · rw [hmaj']; exact numberCheck_small hM
  · rw [hmin']; exact numberCheck_small hm

/-- The builder's match-everything flag is the rule's. -/
theorem matchesAll_of_ruleMatch {rule : DeviceRule} {m : RuleMatch} (h : ruleMatch rule = .ok m) :
    m.matchesAll = rule.matchesEverything := by
  obtain ⟨major, minor, hk, hmaj, hmin, -, hmaj', hmin', -⟩ := ruleMatch_ok h
  have hnone : ∀ n, (numberCheck n).isNone = isWildcard (some n) := by
    intro n
    by_cases hn : 0 ≤ n
    · rw [numberCheck, if_pos hn, isWildcard, Option.any_some, decide_eq_false (by omega)]; rfl
    · rw [numberCheck, if_neg hn, isWildcard, Option.any_some, decide_eq_true (by omega)]; rfl
  have htype : m.deviceType.isNone = decide (rule.kind = "a") := by
    rw [kindType_ok hk]
    rcases m.deviceType with _ | (_ | _) <;> decide
  rw [RuleMatch.matchesAll, DeviceRule.matchesEverything, htype, hasAccess_of_ruleMatch h, hmaj',
    hmin', hmaj, hmin, hnone, hnone]
  cases ['r', 'w', 'm'].all (· ∈ rule.access.toList) <;> simp

/-- The rules up to the first one that matches everything. -/
def takeThrough : List DeviceRule → List DeviceRule
  | [] => []
  | rule :: rest => if rule.matchesEverything then [rule] else rule :: takeThrough rest

theorem takeThrough_append (l : List DeviceRule) (rule : DeviceRule) :
    takeThrough (l ++ [rule]) =
      if l.any DeviceRule.matchesEverything then takeThrough l else l ++ [rule] := by
  induction l with
  | nil => simp [takeThrough]
  | cons a l ih =>
    cases ha : a.matchesEverything with
    | true => simp [takeThrough, ha]
    | false =>
      simp only [List.cons_append, takeThrough, ha, Bool.false_eq_true, if_false, ih,
        List.any_cons, Bool.false_or]
      split <;> rfl

/-- The rules a wrapper keeps, in the order they are appended. -/
theorem keptRules_eq (rules : List DeviceRule) :
    keptRules rules = (takeThrough rules.reverse).reverse := by
  induction rules with
  | nil => rfl
  | cons rule rest ih =>
    rw [List.reverse_cons, takeThrough_append, List.any_reverse, keptRules]
    split
    · exact ih
    · rw [List.reverse_append, List.reverse_reverse, List.reverse_singleton, List.singleton_append]

/-- The rules that `compile` kept, read back. -/
theorem compile_readBack {rules : List DeviceRule} {ms : List RuleMatch}
    (h : compile rules = .ok ms) (hs : ∀ rule ∈ rules, rule.SmallNumbers) :
    ms.map RuleMatch.rule = (takeThrough rules).map DeviceRule.readBack ∧ ∀ m ∈ ms, m.Small := by
  induction rules generalizing ms with
  | nil => cases h; exact ⟨rfl, fun m hm => by cases hm⟩
  | cons rule rest ih =>
    cases hm : ruleMatch rule with
    | error e => simp only [compile, hm, bind, Except.bind] at h; cases h
    | ok m =>
      obtain ⟨hrule, hsmall⟩ := rule_of_ruleMatch hm (hs rule List.mem_cons_self)
      have hall := matchesAll_of_ruleMatch hm
      simp only [compile, hm, bind, Except.bind] at h
      cases he : rule.matchesEverything with
      | true =>
        rw [hall, he, if_pos rfl] at h
        cases h
        refine ⟨by simp [takeThrough, he, hrule], fun n hn => ?_⟩
        rwa [List.mem_singleton.mp hn]
      | false =>
        rw [hall, he, if_neg (by simp)] at h
        cases hr : compile rest with
        | error e => rw [hr] at h; cases h
        | ok more =>
          rw [hr] at h
          cases h
          obtain ⟨hmap, hsm⟩ := ih hr fun r hr => hs r (List.mem_cons_of_mem _ hr)
          refine ⟨by simp [takeThrough, he, hrule, hmap], fun n hn => ?_⟩
          rcases List.mem_cons.mp hn with rfl | hn
          · exact hsmall
          · exact hsm n hn

private theorem ruleMatch_small_iff {rule : DeviceRule} {m : RuleMatch}
    (h : ruleMatch rule = .ok m) :
    m.Small ↔ rule.SmallNumbers := by
  obtain ⟨major, minor, -, hmaj, hmin, -, hmaj', hmin', -, hle, hle'⟩ := ruleMatch_ok h
  rw [RuleMatch.Small, DeviceRule.SmallNumbers, hmaj', hmin', numberCheck_small_iff hle,
    numberCheck_small_iff hle', hmaj, hmin]
  simp

/-- The blocks of the rules have no number from 2^31 on exactly when the kept rules have none. -/
theorem compile_small_iff {rules : List DeviceRule} {ms : List RuleMatch}
    (h : compile rules = .ok ms) :
    (∀ m ∈ ms, m.Small) ↔ ∀ rule ∈ takeThrough rules, rule.SmallNumbers := by
  induction rules generalizing ms with
  | nil => cases h; simp [takeThrough]
  | cons rule rest ih =>
    cases hm : ruleMatch rule with
    | error e => simp only [compile, hm, bind, Except.bind] at h; cases h
    | ok m =>
      have hsmall := ruleMatch_small_iff hm
      have hall := matchesAll_of_ruleMatch hm
      simp only [compile, hm, bind, Except.bind] at h
      cases he : rule.matchesEverything with
      | true =>
        rw [hall, he, if_pos rfl] at h
        cases h
        simp [takeThrough, he, hsmall]
      | false =>
        rw [hall, he, if_neg (by simp)] at h
        cases hr : compile rest with
        | error e => rw [hr] at h; cases h
        | ok more =>
          rw [hr] at h
          cases h
          simp [takeThrough, he, hsmall, ih hr]

theorem mem_of_keptRules {rules : List DeviceRule} {rule : DeviceRule}
    (h : rule ∈ keptRules rules) :
    rule ∈ rules := by
  induction rules with
  | nil => cases h
  | cons first rest ih =>
    rw [keptRules] at h
    split at h
    · exact List.mem_cons_of_mem _ (ih h)
    · exact h

end Filter
end Sda
