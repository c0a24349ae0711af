import DeviceAccess.Filter.ReadBack

/-!
# Wrappers around wrappers (`parse_owned_innermost`)

`parseOwnedInnermost` strips a stack of wrappers down to the program underneath them all. It
terminates because a wrapper is longer than what it wraps (`Wraps.length_lt`).

`wrapLayers` wraps layer by layer, and `parseOwnedInnermost` is its exact inverse on accepted
layers, for any number of them. The one limit is the 32-bit header
field for the index of the trailer (`Layer.Fits`).
-/

namespace Sda
namespace Filter

open Asm

/-! ## Stripping wrappers -/

section Layers

variable (sha256 : Bytes → Vector Byte 32)

/-- The loop of `parse_owned_innermost`: what is left of `original` once no wrapper is around it. -/
def innermostFrom (original : Bytes) : Except OwnedError Bytes :=
  match _h : parseOwned sha256 original with
  | .error error => .error error
  | .ok none => .ok original
  | .ok (some inner) => innermostFrom inner.original
  termination_by original.length
  decreasing_by
    obtain ⟨ms, -, hw, -⟩ := wraps_of_parseOwned _h
    exact hw.length_lt

/-- `parse_owned_innermost`: the nonce and the rules of the outermost wrapper, and the original
underneath them all. -/
def parseOwnedInnermost (raw : Bytes) : Except OwnedError (Option OwnedProgram) :=
  match parseOwned sha256 raw with
  | .error error => .error error
  | .ok none => .ok none
  | .ok (some owned) => do
    let original ← innermostFrom sha256 owned.original
    .ok (some { owned with original := original })

/-- One wrapper of a stack. -/
structure Layer where
  rules : List DeviceRule
  nonce : BitVec 64
  deriving DecidableEq, Repr

/-- `original` wrapped layer by layer; the first layer is the outermost. -/
def wrapLayers : List Layer → Bytes → Except EmitError Bytes
  | [], original => .ok original
  | layer :: inner, original => do
    let wrapped ← wrapLayers inner original
    emitOwned sha256 layer.rules layer.nonce wrapped

/-- A layer that `append_device` accepts, with numbers the kernel knows. -/
structure Layer.Accepted (layer : Layer) : Prop where
  appended : ∃ program, Program.new.appendAll layer.rules.reverse = .ok program
  small : ∀ rule ∈ layer.rules, rule.SmallNumbers

/-- The index of the trailer fits the header field. -/
def Layer.Fits (layer : Layer) : Prop :=
  ∀ program, Program.new.appendAll layer.rules.reverse = .ok program →
    headerLen + program.instructionCount ≤ u32Max

/-- A canonical program with at least one instruction. -/
def CanonicalProgram (raw : Bytes) : Prop :=
  ∃ is, is ≠ [] ∧ decode raw = .ok is ∧ canonicalBytes is = .ok raw

variable {sha256}

theorem innermostFrom_none {original : Bytes} (h : parseOwned sha256 original = .ok none) :
    innermostFrom sha256 original = .ok original := by
  rw [innermostFrom]
  split
  · rename_i he; rw [h] at he; cases he
  · rfl
  · rename_i he; rw [h] at he; cases he

theorem innermostFrom_some {original : Bytes} {inner : OwnedProgram}
    (h : parseOwned sha256 original = .ok (some inner)) :
    innermostFrom sha256 original = innermostFrom sha256 inner.original := by
  rw [innermostFrom]
  split
  · rename_i he; rw [h] at he; cases he
  · rename_i he; rw [h] at he; cases he
  · rename_i he
    rw [h] at he
    cases he
    rfl

theorem CanonicalProgram.intro {raw : Bytes} {is : List Instruction} (hne : is ≠ [])
    (hd : Decodes raw is) (he : Encodes is raw) : CanonicalProgram raw :=
  ⟨is, hne, decode_iff.mpr hd, encodeFrom_iff.mpr he⟩

/-- The wrapped program is canonical. -/
theorem Wraps.canonical_original {ms : List RuleMatch} {nonce : BitVec 64} {original raw : Bytes}
    (h : Wraps sha256 ms nonce original raw) : CanonicalProgram original := by
  obtain ⟨-, is, hne, hd, he, -⟩ := h
  exact .intro hne hd he

theorem Wraps.canonical_raw {ms : List RuleMatch} {nonce : BitVec 64} {original raw : Bytes}
    (h : Wraps sha256 ms nonce original raw) : CanonicalProgram raw := by
  obtain ⟨is, hd, he⟩ := h.canonical
  obtain ⟨is', hne, -, -, hd'⟩ := h.decodes
  refine .intro ?_ hd he
  rw [hd.unique hd', wrapperCode_eq, trailer_cons]
  exact List.append_ne_nil_of_right_ne_nil _ (List.cons_ne_nil _ _)

/-- What wraps a canonical program was compiled from the rules. -/
theorem wraps_of_emitOwned {rules : List DeviceRule} {nonce : BitVec 64} {original raw : Bytes}
    (hc : CanonicalProgram original) (h : emitOwned sha256 rules nonce original = .ok raw) :
    ∃ ms, compile rules.reverse = .ok ms ∧ Wraps sha256 ms nonce original raw := by
  obtain ⟨is, ms, hd, hne, hcomp, he⟩ := emitOwned_ok.mp h
  obtain ⟨is', -, hd', he'⟩ := hc
  obtain rfl := (decode_iff.mp hd').unique hd
  exact ⟨ms, hcomp, compiled_of_compile hcomp, is', hne, hd, encodeFrom_iff.mp he', he⟩

/-- An accepted layer wraps every canonical program, and is read back. -/
theorem Layer.Accepted.parseOwned {layer : Layer} (ha : layer.Accepted) (hf : layer.Fits)
    {inner : Bytes} (hc : CanonicalProgram inner) :
    ∃ raw, emitOwned sha256 layer.rules layer.nonce inner = .ok raw ∧ CanonicalProgram raw ∧
      Filter.parseOwned sha256 raw =
        .ok (some ⟨layer.nonce, readBackRules layer.rules, inner⟩) := by
  obtain ⟨program, happ⟩ := ha.appended
  have hfit := hf program happ
  rw [appendAll_eq] at happ
  cases hcomp : compile layer.rules.reverse with
  | error e => rw [hcomp] at happ; cases happ
  | ok ms =>
    rw [hcomp] at happ
    cases happ
    rw [instructionCount_ofMatches] at hfit
    obtain ⟨is, hne, hd, he⟩ := hc
    have hd := decode_iff.mp hd
    have he : Encodes is inner := encodeFrom_iff.mp he
    obtain ⟨raw, hw⟩ :=
      @exists_wraps sha256 ms inner is (compiled_of_compile hcomp) hne hd he layer.nonce
    obtain ⟨hrules, hsmall⟩ := compile_readBack hcomp fun rule hr =>
      ha.small rule (List.mem_reverse.mp hr)
    have hemit : emitOwned sha256 layer.rules layer.nonce inner = .ok raw := by
      obtain ⟨-, is', hne', hd', -, hE⟩ := hw
      exact emitOwned_ok.mpr ⟨is', ms, hd', hne', hcomp, hE⟩
    refine ⟨raw, hemit, hw.canonical_raw, ?_⟩
    rw [parseOwned_small hw (by rw [trailerIndex, Nat.add_assoc]; exact hfit) hsmall, hrules,
      readBackRules, keptRules_eq, List.map_reverse]

/-- Wrapping layer by layer, and stripping again. -/
theorem innermostFrom_wrapLayers {original : Bytes} (hc : CanonicalProgram original)
    (hn : parseOwned sha256 original = .ok none) {layers : List Layer}
    (h : ∀ layer ∈ layers, layer.Accepted ∧ layer.Fits) :
    ∃ raw, wrapLayers sha256 layers original = .ok raw ∧ CanonicalProgram raw ∧
      innermostFrom sha256 raw = .ok original := by
  induction layers with
  | nil => exact ⟨original, rfl, hc, innermostFrom_none hn⟩
  | cons layer inner ih =>
    obtain ⟨wrapped, hwrap, hcw, hinner⟩ := ih fun l hl => h l (List.mem_cons_of_mem _ hl)
    obtain ⟨ha, hf⟩ := h layer List.mem_cons_self
    obtain ⟨raw, hemit, hcr, hparse⟩ := @Layer.Accepted.parseOwned sha256 layer ha hf wrapped hcw
    refine ⟨raw, ?_, hcr, by rw [innermostFrom_some hparse, hinner]⟩
    simp only [wrapLayers, hwrap, bind, Except.bind, hemit]

/-- A wrapper that is recognised is an accepted layer around its original. -/
theorem accepted_of_parseOwned {raw : Bytes} {owned : OwnedProgram}
    (h : parseOwned sha256 raw = .ok (some owned)) :
    Layer.Accepted ⟨owned.rules, owned.nonce⟩ ∧ Layer.Fits ⟨owned.rules, owned.nonce⟩ ∧
      emitOwned sha256 owned.rules owned.nonce owned.original = .ok raw ∧
      CanonicalProgram owned.original ∧ readBackRules owned.rules = owned.rules := by
  obtain ⟨ms, hcomp, hw, hfit, hsmall, hrules⟩ := wraps_of_parseOwned h
  obtain ⟨-, -, -, -, hemit⟩ := parseOwned_some h
  have hnumbers : ∀ rule ∈ owned.rules, rule.SmallNumbers := by
    have key : ∀ number : Option (BitVec 32), ∀ n ∈ some ((number.map (BitVec.signExtend 64)).elim
        wildcard BitVec.toInt), n < 2 ^ 31 := by
      intro number n hn
      cases hn
      cases number with
      | none => decide
      | some v =>
        have hv : (v.signExtend 64).toInt = v.toInt := BitVec.toInt_signExtend_of_le (by decide)
        simp only [Option.map_some, Option.elim_some, hv]
        exact BitVec.toInt_lt
    intro rule hr
    rw [hrules, List.mem_reverse] at hr
    obtain ⟨m, -, rfl⟩ := List.mem_map.mp hr
    exact ⟨key m.major, key m.minor⟩
  have happ : Program.new.appendAll owned.rules.reverse = .ok (Program.ofMatches ms) := by
    rw [appendAll_eq, hcomp]; rfl
  refine ⟨⟨⟨_, happ⟩, hnumbers⟩, fun program hp => ?_, hemit, hw.canonical_original, ?_⟩
  · rw [happ] at hp
    cases hp
    rw [instructionCount_ofMatches, ← Nat.add_assoc]
    exact hfit
  · obtain ⟨hmap, -⟩ := compile_readBack hcomp fun rule hr => hnumbers rule (List.mem_reverse.mp hr)
    rw [readBackRules, keptRules_eq, List.map_reverse, ← hmap, ← hrules]

/-- What the loop strips off is a stack of accepted layers. -/
theorem wrapLayers_of_innermostFrom {raw : Bytes} (hc : CanonicalProgram raw) {original : Bytes}
    (h : innermostFrom sha256 raw = .ok original) :
    CanonicalProgram original ∧ parseOwned sha256 original = .ok none ∧
      ∃ layers, (∀ layer ∈ layers, layer.Accepted ∧ layer.Fits) ∧
        wrapLayers sha256 layers original = .ok raw := by
  induction hl : raw.length using Nat.strongRecOn generalizing raw with
  | _ n ih =>
    cases hp : parseOwned sha256 raw with
    | error e =>
      rw [innermostFrom] at h
      split at h
      · cases h
      · rename_i he; rw [hp] at he; cases he
      · rename_i he; rw [hp] at he; cases he
    | ok found =>
      cases found with
      | none =>
        rw [innermostFrom_none hp] at h
        cases h
        exact ⟨hc, hp, [], fun layer hm => (List.not_mem_nil hm).elim, rfl⟩
      | some owned =>
        obtain ⟨ha, hf, hemit, hco, -⟩ := accepted_of_parseOwned hp
        obtain ⟨ms, -, hw, -⟩ := wraps_of_parseOwned hp
        rw [innermostFrom_some hp] at h
        obtain ⟨hcan, hnone, layers, hall, hwrap⟩ := ih _ (hl ▸ hw.length_lt) hco h rfl
        refine ⟨hcan, hnone, ⟨owned.rules, owned.nonce⟩ :: layers, ?_, ?_⟩
        · intro layer hm
          rcases List.mem_cons.mp hm with rfl | hm
          · exact ⟨ha, hf⟩
          · exact hall layer hm
        · simp only [wrapLayers, hwrap, bind, Except.bind, hemit]

theorem parseOwned_of_innermost_none {raw : Bytes}
    (h : parseOwnedInnermost sha256 raw = .ok none) : parseOwned sha256 raw = .ok none := by
  unfold parseOwnedInnermost at h
  split at h
  · cases h
  · assumption
  · rename_i owned _
    cases hi : innermostFrom sha256 owned.original with
    | error e => simp only [hi, bind, Except.bind] at h; cases h
    | ok original => simp only [hi, bind, Except.bind] at h; cases h

theorem parseOwned_of_innermost_some {raw : Bytes} {owned : OwnedProgram}
    (h : parseOwnedInnermost sha256 raw = .ok (some owned)) :
    ∃ outer, parseOwned sha256 raw = .ok (some outer) ∧
      innermostFrom sha256 outer.original = .ok owned.original ∧
      owned = { outer with original := owned.original } := by
  unfold parseOwnedInnermost at h
  split at h
  · cases h
  · cases h
  · rename_i outer hp
    cases hi : innermostFrom sha256 outer.original with
    | error e => simp only [hi, bind, Except.bind] at h; cases h
    | ok original =>
      simp only [hi, bind, Except.bind] at h
      cases h
      exact ⟨outer, hp, hi, rfl⟩

/-- Under a stack of wrappers there is a canonical program that is no wrapper. -/
theorem original_of_innermost {raw : Bytes} {owned : OwnedProgram}
    (h : parseOwnedInnermost sha256 raw = .ok (some owned)) :
    CanonicalProgram owned.original ∧ parseOwned sha256 owned.original = .ok none := by
  obtain ⟨outer, hp, hi, -⟩ := parseOwned_of_innermost_some h
  obtain ⟨ms, -, hw, -⟩ := wraps_of_parseOwned hp
  obtain ⟨hc, hn, -⟩ := wrapLayers_of_innermostFrom hw.canonical_original hi
  exact ⟨hc, hn⟩

/-- The canonical bytes of a program that was read are those of a canonical program. -/
theorem canonicalProgram_of_decode {xlated raw : Bytes} {is : List Instruction} (hne : is ≠ [])
    (hd : decode xlated = .ok is) (he : canonicalBytes is = .ok raw) : CanonicalProgram raw := by
  obtain ⟨hd', he', -⟩ := (decode_iff.mp hd).encodes (encodeFrom_iff.mp he)
  exact .intro (by simpa using hne) hd' he'

end Layers

/-- **Recognising wrappers is exact at any depth.** Wrapping a canonical original layer by layer
and taking the result apart gives back the outermost layer and the original; and whatever is taken
apart is such a stack. -/
theorem parseOwnedInnermost_exact (sha256 : Bytes → Vector Byte 32) :
    (∀ (original : Bytes) (outer : Layer) (inner : List Layer), CanonicalProgram original →
      parseOwned sha256 original = .ok none →
      (∀ layer ∈ outer :: inner, layer.Accepted ∧ layer.Fits) →
      ∃ raw, wrapLayers sha256 (outer :: inner) original = .ok raw ∧
        parseOwnedInnermost sha256 raw =
          .ok (some ⟨outer.nonce, readBackRules outer.rules, original⟩)) ∧
    ∀ (raw : Bytes) (owned : OwnedProgram), parseOwnedInnermost sha256 raw = .ok (some owned) →
      CanonicalProgram owned.original ∧ parseOwned sha256 owned.original = .ok none ∧
        ∃ (outer : Layer) (inner : List Layer),
          (∀ layer ∈ outer :: inner, layer.Accepted ∧ layer.Fits) ∧
          wrapLayers sha256 (outer :: inner) owned.original = .ok raw ∧
          outer.nonce = owned.nonce ∧ readBackRules outer.rules = owned.rules := by
  constructor
  · intro original outer inner hc hn h
    obtain ⟨wrapped, hwrap, hcw, hinner⟩ :=
      innermostFrom_wrapLayers hc hn fun l hl => h l (List.mem_cons_of_mem _ hl)
    obtain ⟨ha, hf⟩ := h outer List.mem_cons_self
    obtain ⟨raw, hemit, -, hparse⟩ := @Layer.Accepted.parseOwned sha256 outer ha hf wrapped hcw
    refine ⟨raw, ?_, ?_⟩
    · simp only [wrapLayers, hwrap, bind, Except.bind, hemit]
    · simp only [parseOwnedInnermost, hparse, hinner, bind, Except.bind]
  · intro raw owned h
    cases hp : parseOwned sha256 raw with
    | error e => simp only [parseOwnedInnermost, hp] at h; cases h
    | ok found =>
      cases found with
      | none => simp only [parseOwnedInnermost, hp] at h; cases h
      | some top =>
        obtain ⟨ha, hf, hemit, hco, hrules⟩ := accepted_of_parseOwned hp
        cases hi : innermostFrom sha256 top.original with
        | error e => simp only [parseOwnedInnermost, hp, hi] at h; cases h
        | ok original =>
          simp only [parseOwnedInnermost, hp, hi, bind, Except.bind] at h
          cases h
          obtain ⟨hcan, hnone, layers, hall, hwrap⟩ := wrapLayers_of_innermostFrom hco hi
          refine ⟨hcan, hnone, ⟨top.rules, top.nonce⟩, layers, ?_, ?_, rfl, hrules⟩
          · intro layer hm
            rcases List.mem_cons.mp hm with rfl | hm
            · exact ⟨ha, hf⟩
            · exact hall layer hm
          · simp only [wrapLayers, hwrap, bind, Except.bind, hemit]

/-! ## A filter that denies everything -/

/-- `mov r0, 0; exit`. -/
def denyAll : Bytes :=
  [0xb4, 0, 0, 0, 0, 0, 0, 0, 0x95, 0, 0, 0, 0, 0, 0, 0]

/-- The SHA-256 of `denyAll`, and that of its wrapper without rules under nonce 9. -/
def sampleSha256 (raw : Bytes) : Vector Byte 32 :=
  if raw = denyAll then
    #v[0x69, 0x1e, 0xf5, 0x5f, 0xeb, 0xf7, 0x84, 0x32, 0x3b, 0xf2, 0xe7,
      0xf3, 0x43, 0x24, 0xa9, 0x3a, 0x5c, 0x52, 0x4c, 0x2f, 0x74, 0x6c,
      0x6f, 0xd0, 0x91, 0x5b, 0x99, 0xa3, 0x93, 0xc1, 0x49, 0x30]
  else
    #v[0x3a, 0xef, 0x06, 0x66, 0xbe, 0xb3, 0xa1, 0xe9, 0xa1, 0x0e, 0xab,
      0xfc, 0x91, 0xff, 0xc9, 0x5f, 0x48, 0x95, 0x29, 0x3d, 0xa2, 0x14,
      0x7c, 0xe7, 0xf1, 0xd0, 0x44, 0x77, 0xae, 0x34, 0x8a, 0xa6]

theorem denyAll_canonical : CanonicalProgram denyAll :=
  ⟨[.alu32Imm Alu.mov r0 0, .exit], by decide, by decide, by decide⟩

theorem denyAll_bare (sha256 : Bytes → Vector Byte 32) : parseOwned sha256 denyAll = .ok none := rfl

/-- Reading and writing the character device 1:3. -/
def nullRule : DeviceRule := ⟨true, "c", some 1, some 3, "wr"⟩

theorem wrapped_twice_parses :
    ∃ raw, wrapLayers sampleSha256 [⟨[nullRule], 7⟩, ⟨[], 9⟩] denyAll = .ok raw ∧
      parseOwnedInnermost sampleSha256 raw =
        .ok (some ⟨7, [⟨true, "c", some 1, some 3, "rw"⟩], denyAll⟩) := by
  refine (parseOwnedInnermost_exact sampleSha256).1 denyAll ⟨[nullRule], 7⟩ [⟨[], 9⟩]
    denyAll_canonical (denyAll_bare _) fun layer hl => ?_
  simp only [List.mem_cons, List.not_mem_nil, or_false] at hl
  rcases hl with rfl | rfl
  · refine ⟨⟨⟨_, rfl⟩, ?_⟩, fun program hp => ?_⟩
    · intro rule hr
      rw [List.mem_singleton.mp hr]
      exact ⟨by decide, by decide⟩
    · cases hp
      decide
  · refine ⟨⟨⟨_, rfl⟩, fun rule hr => (List.not_mem_nil hr).elim⟩, fun program hp => ?_⟩
    cases hp
    decide

/-! ## Wrappers beyond 32 bits -/

theorem compile_replicate {rule : DeviceRule} {m : RuleMatch} (h : ruleMatch rule = .ok m)
    (hm : m.matchesAll = false) (n : Nat) :
    compile (List.replicate n rule) = .ok (List.replicate n m) := by
  induction n with
  | zero => rfl
  | succ n ih =>
    simp only [List.replicate_succ, compile, h, hm, ih, bind, Except.bind, Bool.false_eq_true,
      if_false]

private theorem codes_replicate (m : RuleMatch) (n : Nat) :
    (codes (List.replicate n m)).length = n * m.code.length := by
  induction n with
  | zero => simp
  | succ n ih =>
    rw [List.replicate_succ, codes_cons, List.length_append, ih, Nat.succ_mul, Nat.add_comm]

/-- So many rules that the index of the trailer does not fit its header field: the daemon does not
recognise the wrapper. -/
theorem unfit_conflicts {n : Nat} (hn : u32Max < 8 * n) (sha256 : Bytes → Vector Byte 32) :
    Layer.Accepted ⟨List.replicate n nullRule, 0⟩ ∧
      ∃ raw, wrapLayers sha256 [⟨List.replicate n nullRule, 0⟩] denyAll = .ok raw ∧
        parseOwnedInnermost sha256 raw = .error (.conflict .trailer) := by
  obtain ⟨m, hm, hall, hlen⟩ : ∃ m, ruleMatch nullRule = .ok m ∧ m.matchesAll = false ∧
      m.code.length = 8 := ⟨_, rfl, by decide, by decide⟩
  have hcomp := compile_replicate hm hall n
  obtain ⟨is, hne, hd, he⟩ := denyAll_canonical
  obtain ⟨raw, hw⟩ := @exists_wraps sha256 (List.replicate n m) denyAll is
    (compiled_of_compile hcomp)
    hne (decode_iff.mp hd) (encodeFrom_iff.mp he) 0
  have hemit : emitOwned sha256 (List.replicate n nullRule) 0 denyAll = .ok raw := by
    obtain ⟨-, is', hne', hd', -, hE⟩ := hw
    exact emitOwned_ok.mpr ⟨is', _, hd', hne', by rw [List.reverse_replicate, hcomp], hE⟩
  have hunfit : u32Max < trailerIndex (List.replicate n m) := by
    rw [trailerIndex, codes_replicate, hlen]
    omega
  refine ⟨⟨⟨Program.ofMatches (List.replicate n m), ?_⟩, fun rule hr => ?_⟩, raw, hemit, ?_⟩
  · show Program.new.appendAll (List.replicate n nullRule).reverse = _
    rw [List.reverse_replicate, appendAll_eq, hcomp]
    rfl
  · rw [List.eq_of_mem_replicate hr]
    exact ⟨by decide, by decide⟩
  · rw [parseOwnedInnermost, parseOwned_unfit hw hunfit]

theorem wrapped_536870912_rules_conflict :
    CanonicalProgram denyAll ∧ parseOwned sampleSha256 denyAll = .ok none ∧
      Layer.Accepted ⟨List.replicate 536870912 nullRule, 0⟩ ∧
      ∃ raw, wrapLayers sampleSha256 [⟨List.replicate 536870912 nullRule, 0⟩] denyAll = .ok raw ∧
        parseOwnedInnermost sampleSha256 raw = .error (.conflict .trailer) :=
  ⟨denyAll_canonical, denyAll_bare _, unfit_conflicts (by decide) _⟩

end Filter
end Sda
