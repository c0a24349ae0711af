import DeviceAccess.Filter.Owned
import DeviceAccess.Filter.BuilderLemmas

/-!
# Wrappers: what `emit_owned` writes, `parse_owned` reads

* **Blocks** (`readBlock_code`): the parser reads every field of a block back, so blocks parse
  without ambiguity.
* **Rules** (`ruleMatch_rule`): the rule of a block compiles to the block again, except that a
  number from 2^31 on comes back negative and its check is lost (`RuleMatch.reread`).
* **Wrappers** (`Wraps`): the bytes of a wrapper, by what it is made of. `parseOwned_small`,
  `parseOwned_large` and `parseOwned_unfit` are the answers of the parser on every wrapper,
  `wraps_of_parseOwned` says that only wrappers are recognised, and `Wraps.injective` that a wrapper
  is made of one thing only.
-/

namespace Sda
namespace Filter

open Asm Bytes

/-! ## Markers -/

@[simp] theorem markerValue_marker (value : BitVec 32) :
    markerValue (marker value) = some value := by
  simp only [markerValue, marker, Instruction.alu32Imm, and_self, if_true, lowU32_signExtend]

private theorem wire_marker (value : BitVec 32) : Wire (marker value) :=
  wire_mov_imm r0 value (by decide)

theorem wire_map_marker (values : List (BitVec 32)) : ∀ i ∈ values.map marker, Wire i := by
  intro i hi
  obtain ⟨v, -, rfl⟩ := List.mem_map.mp hi
  exact wire_marker v

private theorem marker_injective {v w : BitVec 32} (h : marker v = marker w) : v = w := by
  have := congrArg markerValue h
  simpa using this

private theorem readHeader_map_marker (index : Nat) (values : List (BitVec 32)) :
    readHeader index (values.map marker) = .ok values := by
  induction values generalizing index with
  | nil => rfl
  | cons v vs ih =>
    simp only [List.map_cons, readHeader, markerValue_marker, ih, bind, Except.bind]

private theorem markerValue_eq_none {i : Instruction}
    (h : i.opcode ≠ OpCode.alu32 Alu.mov immSource) :
    markerValue i = none := by
  rw [markerValue, if_neg fun hc => h hc.1]

/-- No instruction of a rule block is the marker that begins a trailer. -/
theorem markerValue_code {m : RuleMatch} {i : Instruction} (hi : i ∈ m.code) :
    markerValue i ≠ some magicLo := by
  obtain ⟨step, hs, h⟩ := mem_code hi
  have hop : i.opcode = step.instruction.opcode := by
    rcases h with rfl | ⟨-, offset, rfl⟩ <;> rfl
  by_cases hmov : step.instruction.opcode = OpCode.alu32 Alu.mov immSource
  · cases hs with
    | verdict allow =>
      rcases h with rfl | ⟨hj, -⟩
      · cases allow <;> decide
      · cases hj
    | number dst value hd =>
      exact absurd (show OpCode.jump Jmp.jne immSource = _ from hmov) (by decide)
    | mask access => exact absurd (show OpCode.alu32 Alu.and immSource = _ from hmov) (by decide)
    | copy | contained | exit => exact absurd hmov (by decide)
  · rw [markerValue_eq_none (by rw [hop]; exact hmov)]
    exact Option.some_ne_none _ |>.symm

/-! ## Blocks -/

/-- The fields the parser reads off the block of `m`. -/
def RuleMatch.fields (m : RuleMatch) : BlockFields where
  kind := m.deviceType
  access := if m.hasAccess then some ((m.access.setWidth 32).signExtend 64) else none
  major := m.major.map (BitVec.signExtend 64)
  minor := m.minor.map (BitVec.signExtend 64)
  allow := m.allow

theorem readBlock_code (m : RuleMatch) (rest : List Instruction) :
    readBlock (m.code ++ rest) = .ok (m.fields, rest) := by
  obtain ⟨type, access, major, minor, allow⟩ := m
  cases hacc : RuleMatch.hasAccess ⟨type, access, major, minor, allow⟩ <;>
    rcases type with _ | (_ | _) <;> cases major <;> cases minor <;> cases allow <;>
    simp only [RuleMatch.code, RuleMatch.block, RuleMatch.checks, RuleMatch.accessSteps,
      RuleMatch.fields, hacc] <;>
    rfl

theorem RuleMatch.fields_injective {m m' : RuleMatch} (h : m.fields = m'.fields) : m = m' := by
  have hext : Function.Injective (BitVec.signExtend 64 : BitVec 32 → BitVec 64) := by
    intro x y hxy
    rw [← lowU32_signExtend x, hxy, lowU32_signExtend]
  have hacc : ∀ a b : BitVec 3,
      (if a ≠ accAll then some ((a.setWidth 32).signExtend 64) else none) =
        (if b ≠ accAll then some ((b.setWidth 32).signExtend 64) else none) → a = b := by
    decide
  obtain ⟨type, access, major, minor, allow⟩ := m
  obtain ⟨type', access', major', minor', allow'⟩ := m'
  simp only [fields, hasAccess, BlockFields.mk.injEq, decide_eq_true_eq] at h
  obtain ⟨rfl, ha, hmaj, hmin, rfl⟩ := h
  rw [hacc _ _ ha, Option.map_injective hext hmaj, Option.map_injective hext hmin]

private theorem code_length_pos (m : RuleMatch) : 0 < m.code.length := by
  rw [code_length, block_length]
  omega

/-- The parser reads all blocks back. -/
theorem readBlocks_codes {fuel : Nat} {ms : List RuleMatch} (hf : (codes ms).length ≤ fuel) :
    readBlocks fuel (codes ms) = .ok (ms.map RuleMatch.fields) := by
  induction ms generalizing fuel with
  | nil => cases fuel <;> rfl
  | cons m ms ih =>
    have hpos := code_length_pos m
    rw [codes_cons, List.length_append] at hf
    obtain ⟨fuel, rfl⟩ : ∃ n, fuel = n + 1 := ⟨fuel - 1, by omega⟩
    have hne : codes (m :: ms) ≠ [] := by
      intro h
      rw [codes_cons] at h
      rw [(List.append_eq_nil_iff.mp h).1] at hpos
      exact Nat.lt_irrefl _ hpos
    rw [readBlocks, if_neg hne, codes_cons, readBlock_code]
    simp only [bind, Except.bind]
    rw [ih (by omega)]
    rfl

private theorem codes_injective {ms ms' : List RuleMatch} (h : codes ms = codes ms') :
    ms = ms' := by
  have h1 := readBlocks_codes (Nat.le_refl (codes ms).length)
  have h2 := readBlocks_codes (Nat.le_refl (codes ms').length)
  rw [h, h2] at h1
  have hinj : Function.Injective RuleMatch.fields := fun _ _ => RuleMatch.fields_injective
  exact (List.map_injective_iff.mpr hinj (Except.ok.inj h1)).symm

/-! ## Rules -/

/-- The rule the parser makes of the block of `m`. -/
def RuleMatch.rule (m : RuleMatch) : DeviceRule := m.fields.rule

/-- No number of the block is 2^31 or more. -/
def RuleMatch.Small (m : RuleMatch) : Prop :=
  (∀ v ∈ m.major, v.msb = false) ∧ ∀ v ∈ m.minor, v.msb = false

/-- What the rule of a block compiles to: a number that was read back negative is the wildcard. -/
def RuleMatch.reread (m : RuleMatch) : RuleMatch :=
  { m with major := m.major.filter (!·.msb), minor := m.minor.filter (!·.msb) }

theorem numberCheck_elim (number : Option (BitVec 32)) :
    numberCheck ((number.map (BitVec.signExtend 64)).elim wildcard BitVec.toInt) =
      number.filter (!·.msb) := by
  cases number with
  | none => rfl
  | some v =>
    have hv : (v.signExtend 64).toInt = v.toInt := BitVec.toInt_signExtend_of_le (by decide)
    simp only [Option.map_some, Option.elim_some, hv]
    cases hm : v.msb with
    | false => rw [numberCheck_toInt hm, Option.filter_some, if_pos (by simp [hm])]
    | true => rw [numberCheck_toInt_msb hm, Option.filter_some, if_neg (by simp [hm])]

theorem elim_le_u32Max (number : Option (BitVec 32)) :
    (number.map (BitVec.signExtend 64)).elim wildcard BitVec.toInt ≤ u32Max := by
  cases number with
  | none => decide
  | some v =>
    have hv : (v.signExtend 64).toInt = v.toInt := BitVec.toInt_signExtend_of_le (by decide)
    simp only [Option.map_some, Option.elim_some, hv]
    exact toInt_le_u32Max v

private theorem accessMask_rule (m : RuleMatch) :
    accessMask 0 m.rule.access.toList = .ok m.access := by
  have key : ∀ a : BitVec 3, accessMask 0 (Option.elim
      (if a ≠ accAll then some ((a.setWidth 32).signExtend 64) else none) "rwm"
        bpfAccessString).toList = .ok a := by decide
  have := key m.access
  simpa [RuleMatch.rule, BlockFields.rule, RuleMatch.fields, RuleMatch.hasAccess] using this

private theorem kindType_rule (m : RuleMatch) : kindType m.rule.kind = .ok m.deviceType := by
  obtain ⟨_ | (_ | _), access, major, minor, allow⟩ := m <;> rfl

/-- The rule of a block is accepted and compiles to what was read. -/
theorem ruleMatch_rule (m : RuleMatch) : ruleMatch m.rule = .ok m.reread := by
  have hmaj := elim_le_u32Max m.major
  have hmin := elim_le_u32Max m.minor
  have hna := numberCheck_elim m.major
  have hni := numberCheck_elim m.minor
  rw [ruleMatch, kindType_rule]
  simp only [bind, Except.bind]
  change (if _ < (m.fields.major.elim wildcard BitVec.toInt) then _ else
    if _ < (m.fields.minor.elim wildcard BitVec.toInt) then _ else _) = _
  rw [if_neg (by simp only [RuleMatch.fields]; omega),
    if_neg (by simp only [RuleMatch.fields]; omega), accessMask_rule]
  simp only [RuleMatch.fields, hna, hni]
  rfl

theorem RuleMatch.Small.reread {m : RuleMatch} (h : m.Small) : m.reread = m := by
  have key : ∀ o : Option (BitVec 32), (∀ v ∈ o, v.msb = false) → o.filter (!·.msb) = o := by
    intro o ho
    cases o with
    | none => rfl
    | some v => rw [Option.filter_some, if_pos (by simp [ho v rfl])]
  obtain ⟨type, access, major, minor, allow⟩ := m
  simp only [RuleMatch.reread, key major h.1, key minor h.2]

/-- A block that loses a check is shorter. -/
theorem reread_code_length (m : RuleMatch) :
    m.reread.code.length ≤ m.code.length ∧ (¬ m.Small → m.reread.code.length < m.code.length) := by
  have key : ∀ (dst : Register) (o : Option (BitVec 32)),
      ((o.filter (!·.msb)).map (RuleMatch.numberStep dst)).toList.length ≤
        (o.map (RuleMatch.numberStep dst)).toList.length ∧
      (¬ (∀ v ∈ o, v.msb = false) →
        ((o.filter (!·.msb)).map (RuleMatch.numberStep dst)).toList.length <
          (o.map (RuleMatch.numberStep dst)).toList.length) := by
    intro dst o
    cases o with
    | none => exact ⟨Nat.le_refl _, fun h => absurd (fun v hv => by cases hv) h⟩
    | some v =>
      cases hv : v.msb with
      | false =>
        rw [Option.filter_some, if_pos (by simp [hv])]
        exact ⟨Nat.le_refl _, fun h => absurd (fun w hw => by cases hw; exact hv) h⟩
      | true =>
        rw [Option.filter_some, if_neg (by simp [hv])]
        exact ⟨Nat.zero_le _, fun _ => Nat.zero_lt_one⟩
  obtain ⟨hle, hlt⟩ := key r4 m.major
  obtain ⟨hle', hlt'⟩ := key r5 m.minor
  have hacc : m.reread.accessSteps = m.accessSteps := rfl
  simp only [code_length, RuleMatch.block, RuleMatch.checks, hacc]
  simp only [RuleMatch.reread, List.length_append]
  refine ⟨by omega, fun h => ?_⟩
  by_cases hmaj : ∀ v ∈ m.major, v.msb = false
  · have := hlt' fun hmin => h ⟨hmaj, hmin⟩
    omega
  · have := hlt hmaj
    omega

/-- A match-everything rule ends the list. -/
def Compiled : List RuleMatch → Prop
  | [] => True
  | m :: ms => (m.matchesAll = true → ms = []) ∧ Compiled ms

theorem compiled_of_compile {rules : List DeviceRule} {ms : List RuleMatch}
    (h : compile rules = .ok ms) : Compiled ms := by
  induction rules generalizing ms with
  | nil => cases h; exact trivial
  | cons rule rest ih =>
    cases hm : ruleMatch rule with
    | error e => simp only [compile, hm, bind, Except.bind] at h; cases h
    | ok m =>
      simp only [compile, hm, bind, Except.bind] at h
      cases hall : m.matchesAll with
      | true =>
        rw [hall, if_pos rfl] at h
        cases h
        exact ⟨fun _ => rfl, trivial⟩
      | false =>
        rw [hall, if_neg (by simp)] at h
        cases hr : compile rest with
        | error e => rw [hr] at h; cases h
        | ok more =>
          rw [hr] at h
          cases h
          refine ⟨fun hc => ?_, ih hr⟩
          rw [hall] at hc
          cases hc

/-- Compiling the rules read off a compiled list gives the list again, unless a number was read
back wrong; then the blocks get shorter. -/
theorem compile_map_rule {ms : List RuleMatch} (hc : Compiled ms) :
    ∃ ms', compile (ms.map RuleMatch.rule) = .ok ms' ∧ (codes ms').length ≤ (codes ms).length ∧
      ((∀ m ∈ ms, m.Small) → ms' = ms) ∧
      (¬ (∀ m ∈ ms, m.Small) → (codes ms').length < (codes ms).length) := by
  induction ms with
  | nil => exact ⟨[], rfl, Nat.le_refl _, fun _ => rfl, fun h => absurd (fun m hm => by cases hm) h⟩
  | cons m ms ih =>
    obtain ⟨ms', hms', hle, heq, hlt⟩ := ih hc.2
    obtain ⟨hle', hlt'⟩ := reread_code_length m
    have hcons : compile ((m :: ms).map RuleMatch.rule) =
        if m.reread.matchesAll then .ok [m.reread] else .ok (m.reread :: ms') := by
      simp only [List.map_cons, compile, ruleMatch_rule, hms', bind, Except.bind]
    cases hall : m.reread.matchesAll with
    | false =>
      refine ⟨m.reread :: ms', by rw [hcons, hall]; rfl, ?_, fun h => ?_, fun h => ?_⟩
      · simp only [codes_cons, List.length_append]; omega
      · rw [(h m List.mem_cons_self).reread, heq fun n hn => h n (List.mem_cons_of_mem _ hn)]
      · simp only [codes_cons, List.length_append]
        by_cases hm : m.Small
        · have := hlt fun hs => h fun n hn => by
            rcases List.mem_cons.mp hn with rfl | hn
            · exact hm
            · exact hs n hn
          omega
        · have := hlt' hm
          omega
    | true =>
      refine ⟨[m.reread], by rw [hcons, hall]; rfl, ?_, fun h => ?_, fun h => ?_⟩
      · simp only [codes_cons, codes_nil, List.length_append, List.length_nil]; omega
      · have hm := (h m List.mem_cons_self).reread
        rw [hm] at hall ⊢
        rw [hc.1 hall]
      · simp only [codes_cons, codes_nil, List.length_append, List.length_nil]
        by_cases hm : m.Small
        · -- The block is unchanged, so the list ended here and has no other number.
          rw [hm.reread] at hall
          have hnil := hc.1 hall
          subst hnil
          exact absurd (fun n hn => by rwa [List.mem_singleton.mp hn]) h
        · have := hlt' hm
          omega

/-! ## Wrappers -/

section Wrappers

variable (sha256 : Bytes → Vector Byte 32)

/-- The index of the trailer of a wrapper with the blocks of `ms`. -/
def trailerIndex (ms : List RuleMatch) : Nat := headerLen + Program.initLen + (codes ms).length

/-- The instructions of a wrapper. -/
def wrapperCode (ms : List RuleMatch) (nonce : BitVec 64) (original : Bytes)
    (is : List Instruction) : List Instruction :=
  (headerValues sha256 nonce original (trailerIndex ms)).map marker ++ Program.init ++ codes ms ++
    ((trailerValues nonce).map marker ++ is)

/-- `raw` is a wrapper with the blocks of `ms` around the canonical program `original`. -/
structure Wraps (ms : List RuleMatch) (nonce : BitVec 64) (original raw : Bytes) : Prop where
  compiled : Compiled ms
  wrapper : ∃ is, is ≠ [] ∧ Decodes original is ∧ Encodes is original ∧
    Encodes (wrapperCode sha256 ms nonce original is) raw

variable {sha256} {ms : List RuleMatch} {nonce : BitVec 64} {original raw : Bytes}

/-- What `emit_owned` returns, and when. -/
theorem emitOwned_ok {rules : List DeviceRule} :
    emitOwned sha256 rules nonce original = .ok raw ↔ ∃ is ms, Decodes original is ∧ is ≠ [] ∧
      compile rules.reverse = .ok ms ∧ Encodes (wrapperCode sha256 ms nonce original is) raw := by
  have hcount : ∀ ms, headerLen + (Program.ofMatches ms).instructionCount = trailerIndex ms := by
    intro ms
    rw [instructionCount_ofMatches, trailerIndex, Nat.add_assoc]
  constructor
  · intro h
    cases hd : decode original with
    | error e => simp only [emitOwned, hd] at h; cases h
    | ok is =>
      simp only [emitOwned, hd, Except.mapError, bind, Except.bind] at h
      by_cases hne : is = []
      · rw [if_pos hne] at h; cases h
      · rw [if_neg hne, appendAll_eq] at h
        cases hc : compile rules.reverse with
        | error e => rw [hc] at h; cases h
        | ok ms =>
          simp only [hc, Except.map, layout_ofMatches, hcount] at h
          exact ⟨is, ms, decode_iff.mp hd, hne, rfl, encodeFrom_iff.mp h⟩
  · rintro ⟨is, ms, hd, hne, hc, he⟩
    simp only [emitOwned, decode_iff.mpr hd, Except.mapError, bind, Except.bind]
    rw [if_neg hne, appendAll_eq, hc]
    simp only [Except.map, layout_ofMatches, hcount]
    exact encodeFrom_iff.mpr he

/-- Every rule list that compiles wraps every canonical program. -/
theorem exists_wraps {is : List Instruction} (hc : Compiled ms) (hne : is ≠ [])
    (hd : Decodes original is) (he : Encodes is original) (nonce : BitVec 64) :
    ∃ raw, Wraps sha256 ms nonce original raw := by
  have hfront : ∀ i ∈ (headerValues sha256 nonce original (trailerIndex ms)).map marker ++
      Program.init ++ codes ms, Wire i := by
    intro i hi
    rcases List.mem_append.mp hi with hi | hi
    · rcases List.mem_append.mp hi with hi | hi
      · exact wire_map_marker _ i hi
      · exact wire_init i hi
    · exact wire_codes ms i hi
  obtain ⟨front, hF, -⟩ := exists_wire hfront
  obtain ⟨trailer, hT, -⟩ := exists_wire (wire_map_marker (trailerValues nonce))
  exact ⟨front ++ (trailer ++ original), hc, is, hne, hd, he, hF.append (hT.append he)⟩

/-- A wrapper decodes to its instructions. -/
theorem Wraps.decodes (h : Wraps sha256 ms nonce original raw) :
    ∃ is, is ≠ [] ∧ Decodes original is ∧ Encodes is original ∧
      Decodes raw (wrapperCode sha256 ms nonce original is) := by
  obtain ⟨-, is, hne, hd, he, hw⟩ := h
  obtain ⟨a, b, rfl, ha, hb⟩ := hw.split
  obtain ⟨a, c, rfl, hH, hC⟩ := ha.split
  obtain ⟨a, i, rfl, hH, hI⟩ := hH.split
  obtain ⟨t, o, rfl, hT, hO⟩ := hb.split
  obtain rfl := hO.unique he
  refine ⟨is, hne, hd, he, ?_⟩
  exact (((hH.decodes_of_wire (wire_map_marker _)).append (hI.decodes_of_wire wire_init)).append
    (hC.decodes_of_wire (wire_codes ms))).append
      ((hT.decodes_of_wire (wire_map_marker _)).append hd)

theorem Wraps.canonical (h : Wraps sha256 ms nonce original raw) : Canonical raw := by
  obtain ⟨is, -, hd, he, hD⟩ := h.decodes
  obtain ⟨-, is', -, hd', -, hE⟩ := h
  cases hd.unique hd'
  exact ⟨_, hD, hE⟩

theorem headerValues_length (index : Nat) :
    (headerValues sha256 nonce original index).length = headerLen := rfl

theorem nonce_words (nonce : BitVec 64) :
    (nonceLo nonce).setWidth 64 ||| ((nonceHi nonce).setWidth 64 <<< 32) = nonce := by
  apply BitVec.eq_of_getLsbD_eq
  intro i hi
  simp only [nonceLo, nonceHi, BitVec.getLsbD_or, BitVec.getLsbD_setWidth,
    BitVec.getLsbD_shiftLeft, BitVec.getLsbD_extractLsb']
  grind

theorem append_cons_injective {α : Type} {a : α} {l l' x y : List α} (hl : a ∉ l) (hl' : a ∉ l')
    (h : l ++ a :: x = l' ++ a :: y) : l = l' ∧ x = y := by
  induction l generalizing l' with
  | nil =>
    cases l' with
    | nil => cases h; exact ⟨rfl, rfl⟩
    | cons b l' => cases h; exact absurd List.mem_cons_self hl'
  | cons b l ih =>
    cases l' with
    | nil => cases h; exact absurd List.mem_cons_self hl
    | cons c l' =>
      simp only [List.cons_append, List.cons.injEq] at h
      obtain ⟨rfl, h⟩ := h
      obtain ⟨rfl, rfl⟩ := ih (fun hm => hl (List.mem_cons_of_mem _ hm))
        (fun hm => hl' (List.mem_cons_of_mem _ hm)) h
      exact ⟨rfl, rfl⟩

private theorem marker_not_mem_codes (ms : List RuleMatch) : marker magicLo ∉ codes ms := by
  intro h
  obtain ⟨m, -, hm⟩ := List.mem_flatMap.mp h
  exact markerValue_code hm (markerValue_marker magicLo)

theorem trailer_cons (nonce : BitVec 64) (is : List Instruction) :
    (trailerValues nonce).map marker ++ is =
      marker magicLo :: ([magicHi, nonceLo nonce, nonceHi nonce].map marker ++ is) := by
  simp only [trailerValues, List.map_cons, List.cons_append]

/-- **A wrapper is made of one thing only.** -/
theorem Wraps.injective {ms' : List RuleMatch} {nonce' : BitVec 64} {original' : Bytes}
    (h : Wraps sha256 ms nonce original raw) (h' : Wraps sha256 ms' nonce' original' raw) :
    ms = ms' ∧ nonce = nonce' ∧ original = original' := by
  obtain ⟨is, -, -, he, hd⟩ := h.decodes
  obtain ⟨is', -, -, he', hd'⟩ := h'.decodes
  have heq := hd.unique hd'
  simp only [wrapperCode, List.append_assoc] at heq
  obtain ⟨hH, hrest⟩ := List.append_inj heq (by simp [headerValues_length])
  have hrest := List.append_cancel_left hrest
  rw [trailer_cons, trailer_cons] at hrest
  obtain ⟨hC, hT⟩ := append_cons_injective (marker_not_mem_codes ms)
    (marker_not_mem_codes ms') hrest
  obtain ⟨-, his⟩ := List.append_inj hT (by simp only [List.length_map, List.length_cons])
  subst his
  have hmark : Function.Injective marker := fun _ _ => marker_injective
  have hvals := List.map_injective_iff.mpr hmark hH
  simp only [headerValues, List.cons_append, List.cons.injEq] at hvals
  obtain ⟨-, -, -, hlo, hhi, -⟩ := hvals
  refine ⟨codes_injective hC, ?_, he.unique he'⟩
  rw [← nonce_words nonce, hlo, hhi, nonce_words]

/-! ### The parser on a wrapper -/

section Fields

variable (sha256) (nonce) (original) (index : Nat)

theorem headerValues_magicHi :
    field (headerValues sha256 nonce original index) hdrMagicHi = magicHi := rfl

theorem headerValues_version :
    field (headerValues sha256 nonce original index) hdrVersion = formatVersion := rfl

theorem headerValues_nonceLo :
    field (headerValues sha256 nonce original index) hdrNonceLo = nonceLo nonce := rfl

theorem headerValues_nonceHi :
    field (headerValues sha256 nonce original index) hdrNonceHi = nonceHi nonce := rfl

theorem headerValues_blockLen :
    field (headerValues sha256 nonce original index) hdrBlockLen = blockLen index := rfl

theorem headerValues_digest :
    ((headerValues sha256 nonce original index).take hdrBlockLen).drop hdrDigest =
      digestOf sha256 original := rfl

end Fields

theorem blockLen_toNat (index : Nat) : (blockLen index).toNat = min index u32Max := by
  unfold blockLen
  split
  · rw [BitVec.toNat_ofNat, Nat.mod_eq_of_lt (by simp only [u32Max] at *; omega)]
    omega
  · rw [BitVec.toNat_ofNat, Nat.mod_eq_of_lt (by decide)]
    omega

theorem wrapperCode_length (is : List Instruction) :
    (wrapperCode sha256 ms nonce original is).length = trailerIndex ms + trailerLen +
    is.length := by
  simp only [wrapperCode, List.length_append, List.length_map, headerValues_length, trailerIndex,
    Program.init, Program.initLen, trailerValues, List.length_cons, List.length_nil, trailerLen]
  omega

/-- The header of a wrapper passes. -/
theorem validateOwned_wrapper {is : List Instruction} (hne : is ≠ []) (raw : Bytes) :
    validateOwned sha256 (wrapperCode sha256 ms nonce original is) raw =
      validateBody sha256 (headerValues sha256 nonce original (trailerIndex ms))
        (min (trailerIndex ms) u32Max) (wrapperCode sha256 ms nonce original is) raw := by
  have hlen := @wrapperCode_length sha256 ms nonce original is
  have hpos := List.length_pos_iff.mpr hne
  have htake : (wrapperCode sha256 ms nonce original is).take headerLen =
      (headerValues sha256 nonce original (trailerIndex ms)).map marker := by
    rw [wrapperCode, List.append_assoc, List.append_assoc]
    exact List.take_left' (by rw [List.length_map, headerValues_length])
  have hidx : headerLen + Program.initLen ≤ trailerIndex ms := Nat.le_add_right ..
  rw [validateOwned, if_neg (by rw [hlen]; omega), htake, readHeader_map_marker]
  simp only [bind, Except.bind, headerValues_magicHi, headerValues_version, headerValues_blockLen,
    blockLen_toNat]
  rw [if_neg (by simp), if_neg]
  rw [hlen]
  simp only [headerLen, Program.initLen, u32Max] at *
  omega

theorem parseOwned_decodes {is : List Instruction} (hne : is ≠ [])
    (hd : Decodes raw (wrapperCode sha256 ms nonce original is)) :
    parseOwned sha256 raw = ((validateBody sha256
      (headerValues sha256 nonce original (trailerIndex ms)) (min (trailerIndex ms) u32Max)
      (wrapperCode sha256 ms nonce original is) raw).map some).mapError .conflict := by
  obtain ⟨rest, hrest⟩ : ∃ rest, wrapperCode sha256 ms nonce original is = marker
      magicLo :: rest := by
    simp only [wrapperCode, headerValues, List.cons_append, List.map_cons]
    exact ⟨_, rfl⟩
  rw [← validateOwned_wrapper hne, parseOwned, decode_iff.mpr hd, hrest]
  simp only [Except.mapError, bind, Except.bind, markerValue_marker, ne_eq, not_true_eq_false,
    if_false]

/-- The instructions before the trailer. -/
def wrapperFront (sha256 : Bytes → Vector Byte 32) (ms : List RuleMatch) (nonce : BitVec 64)
    (original : Bytes) : List Instruction :=
  (headerValues sha256 nonce original (trailerIndex ms)).map marker ++ Program.init ++ codes ms

theorem wrapperFront_length :
    (wrapperFront sha256 ms nonce original).length = trailerIndex ms := by
  simp only [wrapperFront, List.length_append, List.length_map, headerValues_length, trailerIndex,
    Program.init, Program.initLen, List.length_cons, List.length_nil]

theorem wrapperCode_eq (is : List Instruction) : wrapperCode sha256 ms nonce original is =
    wrapperFront sha256 ms nonce original ++ ((trailerValues nonce).map marker ++ is) := rfl

theorem drop_middle {α : Type} {a b d : List α} {n : Nat} (h : a.length ≤ n)
    (h' : n < a.length + b.length) :
    ∃ i rest, (a ++ b ++ d).drop n = i :: rest ∧ i ∈ b := by
  have hk : n - a.length < b.length := by omega
  refine ⟨b[n - a.length], b.drop (n - a.length + 1) ++ d, ?_, List.getElem_mem hk⟩
  rw [List.append_assoc, List.drop_append, List.drop_eq_nil_of_le h, List.nil_append,
    List.drop_append_of_le_length (Nat.le_of_lt hk), List.drop_eq_getElem_cons hk, List.cons_append]

/-- A wrapper whose trailer is beyond 32 bits is not recognised. -/
theorem parseOwned_unfit (h : Wraps sha256 ms nonce original raw)
    (hfit : u32Max < trailerIndex ms) :
    parseOwned sha256 raw = .error (.conflict .trailer) := by
  obtain ⟨is, hne, -, -, hd⟩ := h.decodes
  have hlen : ((headerValues sha256 nonce original (trailerIndex ms)).map marker ++
      Program.init).length = headerLen + Program.initLen := by
    simp only [List.length_append, List.length_map, headerValues_length, Program.init,
      Program.initLen, List.length_cons, List.length_nil]
  -- The instruction at `u32::MAX` belongs to a rule block.
  obtain ⟨i, rest, hrest, hi⟩ : ∃ i rest, (wrapperCode sha256 ms nonce original is).drop u32Max =
      i :: rest ∧ i ∈ codes ms := by
    rw [wrapperCode]
    apply drop_middle
    · rw [hlen]; decide
    · rw [hlen]; exact hfit
  obtain ⟨m, -, hm⟩ := List.mem_flatMap.mp hi
  have htrailer : trailerMatches (((wrapperCode sha256 ms nonce original is).drop u32Max).take
      trailerLen) [magicLo, magicHi, nonceLo nonce, nonceHi nonce] = false := by
    rw [hrest, trailerLen, List.take_succ_cons, trailerMatches, List.zip_cons_cons, List.all_cons]
    simp only [markerValue_code hm, decide_false, Bool.false_and]
  rw [parseOwned_decodes hne hd, validateBody, Nat.min_eq_right (Nat.le_of_lt hfit),
    headerValues_nonceLo, headerValues_nonceHi, htrailer]
  rfl

/-- What the parser gets out of a wrapper whose trailer is within 32 bits, before the
regeneration check. -/
theorem parseOwned_fit (h : Wraps sha256 ms nonce original raw)
    (hfit : trailerIndex ms ≤ u32Max) :
    parseOwned sha256 raw =
      ((regenerate sha256 ⟨nonce, (ms.map RuleMatch.rule).reverse, original⟩ raw).map
        some).mapError .conflict := by
  obtain ⟨is, hne, hdo, heo, hd⟩ := h.decodes
  have hfl := @wrapperFront_length sha256 ms nonce original
  have htl : ((trailerValues nonce).map marker).length = trailerLen := rfl
  have hdrop : (wrapperCode sha256 ms nonce original is).drop (trailerIndex ms) =
      (trailerValues nonce).map marker ++ is := by
    rw [wrapperCode_eq, List.drop_left' hfl]
  have htrailer : trailerMatches (((wrapperCode sha256 ms nonce original is).drop
      (trailerIndex ms)).take trailerLen) [magicLo, magicHi, nonceLo nonce,
        nonceHi nonce] = true := by
    rw [hdrop, List.take_left' htl]
    simp only [trailerMatches, trailerValues, List.map_cons, List.map_nil, List.zip_cons_cons,
      List.zip_nil_left, List.all_cons, List.all_nil, markerValue_marker, decide_true,
        Bool.and_self]
  have hcodes : ((wrapperCode sha256 ms nonce original is).take (trailerIndex ms)).drop
      (headerLen + Program.initLen) = codes ms := by
    rw [wrapperCode_eq, List.take_left' hfl, wrapperFront]
    apply List.drop_left'
    simp only [List.length_append, List.length_map, headerValues_length, Program.init,
      Program.initLen, List.length_cons, List.length_nil]
  have horig : (wrapperCode sha256 ms nonce original is).drop
      (trailerIndex ms + trailerLen) = is := by
    rw [← List.drop_drop, hdrop, List.drop_left' htl]
  have hrules : parseRuleBlocks (codes ms) = .ok (ms.map RuleMatch.rule).reverse := by
    rw [parseRuleBlocks, readBlocks_codes (Nat.le_refl _)]
    simp only [bind, Except.bind, List.map_map]
    rfl
  have hcanon : canonicalBytes is = .ok original := encodeFrom_iff.mpr heo
  have hnonce : headerNonce (headerValues sha256 nonce original (trailerIndex ms)) = nonce := by
    rw [headerNonce, headerValues_nonceLo, headerValues_nonceHi, nonce_words]
  rw [parseOwned_decodes hne hd, validateBody, Nat.min_eq_left hfit, headerValues_nonceLo,
    headerValues_nonceHi, htrailer, hcodes, horig, hrules, hcanon]
  simp only [not_true_eq_false, if_false, Except.mapError, bind, Except.bind, headerValues_digest,
    ne_eq, hnonce]

/-- A wrapper whose numbers are all below 2^31 is recognised. -/
theorem parseOwned_small (h : Wraps sha256 ms nonce original raw) (hfit : trailerIndex ms ≤ u32Max)
    (hs : ∀ m ∈ ms, m.Small) :
    parseOwned sha256 raw = .ok (some ⟨nonce, (ms.map RuleMatch.rule).reverse, original⟩) := by
  obtain ⟨ms', hc, -, heq, -⟩ := compile_map_rule h.compiled
  obtain ⟨-, is, hne, hd, -, hE⟩ := id h
  have hemit : emitOwned sha256 (ms.map RuleMatch.rule).reverse nonce original = .ok raw := by
    refine emitOwned_ok.mpr ⟨is, ms', hd, hne, ?_, ?_⟩
    · rw [List.reverse_reverse, hc]
    · rwa [heq hs]
  rw [parseOwned_fit h hfit, regenerate, hemit]
  simp only [ne_eq, not_true_eq_false, if_false]
  rfl

/-- A wrapper with a number from 2^31 on is a conflict: it regenerates to something shorter. -/
theorem parseOwned_large (h : Wraps sha256 ms nonce original raw) (hfit : trailerIndex ms ≤ u32Max)
    (hs : ¬ ∀ m ∈ ms, m.Small) :
    parseOwned sha256 raw = .error (.conflict (.regenerated none)) := by
  obtain ⟨ms', hc, -, -, hlt⟩ := compile_map_rule h.compiled
  obtain ⟨is, hne, hd, he, -⟩ := h.decodes
  obtain ⟨raw', hw'⟩ := @exists_wraps sha256 ms' original is (compiled_of_compile hc)
    hne hd he nonce
  have hemit : emitOwned sha256 (ms.map RuleMatch.rule).reverse nonce original = .ok raw' := by
    obtain ⟨-, is', hne', hd', -, hE⟩ := hw'
    refine emitOwned_ok.mpr ⟨is', ms', hd', hne', ?_, hE⟩
    rw [List.reverse_reverse, hc]
  have hraw : raw' ≠ raw := by
    rintro rfl
    have := hlt hs
    rw [(hw'.injective h).1] at this
    exact Nat.lt_irrefl _ this
  rw [parseOwned_fit h hfit, regenerate, hemit]
  simp only [ne_eq, hraw, not_false_eq_true, if_true]
  rfl

/-! ### Only wrappers are recognised -/

theorem regenerate_ok {owned owned' : OwnedProgram}
    (h : regenerate sha256 owned raw = .ok owned') :
    owned' = owned ∧ emitOwned sha256 owned.rules owned.nonce owned.original = .ok raw := by
  rw [regenerate] at h
  cases he : emitOwned sha256 owned.rules owned.nonce owned.original with
  | error e => rw [he] at h; cases h
  | ok regenerated =>
    rw [he] at h
    by_cases hr : regenerated = raw
    · simp only [hr, ne_eq, not_true_eq_false, if_false] at h
      cases h
      exact ⟨rfl, by rw [hr]⟩
    · simp only [ne_eq, hr, not_false_eq_true, if_true] at h
      cases h

theorem validateBody_ok {header : List (BitVec 32)} {blockLen : Nat}
    {instructions : List Instruction} {owned : OwnedProgram}
    (h : validateBody sha256 header blockLen instructions raw = .ok owned) :
    canonicalBytes (instructions.drop (blockLen + trailerLen)) = .ok owned.original ∧
      emitOwned sha256 owned.rules owned.nonce owned.original = .ok raw := by
  rw [validateBody] at h
  split at h
  · cases h
  · cases hr :
      parseRuleBlocks ((instructions.take blockLen).drop (headerLen + Program.initLen)) with
    | error e => rw [hr] at h; cases h
    | ok rules =>
      cases hc : canonicalBytes (instructions.drop (blockLen + trailerLen)) with
      | error e => rw [hr, hc] at h; cases h
      | ok original =>
        simp only [hr, hc, Except.mapError, bind, Except.bind] at h
        split at h
        · cases h
        · obtain ⟨rfl, hemit⟩ := regenerate_ok h
          exact ⟨rfl, hemit⟩

theorem validateOwned_ok {instructions : List Instruction} {owned : OwnedProgram}
    (h : validateOwned sha256 instructions raw = .ok owned) :
    ∃ n, canonicalBytes (instructions.drop n) = .ok owned.original ∧
      emitOwned sha256 owned.rules owned.nonce owned.original = .ok raw := by
  rw [validateOwned] at h
  split at h
  · cases h
  · cases hh : readHeader 0 (instructions.take headerLen) with
    | error e => rw [hh] at h; cases h
    | ok header =>
      simp only [hh, bind, Except.bind] at h
      split at h
      · cases h
      · split at h
        · cases h
        · exact ⟨_, validateBody_ok h⟩

/-- What `parse_owned` takes apart was emitted from what it returns. -/
theorem parseOwned_some {owned : OwnedProgram} (h : parseOwned sha256 raw = .ok (some owned)) :
    ∃ is n, Decodes raw is ∧ canonicalBytes (is.drop n) = .ok owned.original ∧
      emitOwned sha256 owned.rules owned.nonce owned.original = .ok raw := by
  rw [parseOwned] at h
  cases hd : decode raw with
  | error e => rw [hd] at h; cases h
  | ok is =>
    simp only [hd, Except.mapError, bind, Except.bind] at h
    cases is with
    | nil => cases h
    | cons first rest =>
      simp only at h
      split at h
      · cases h
      · cases hv : validateOwned sha256 (first :: rest) raw with
        | error e => rw [hv] at h; cases h
        | ok owned' =>
          rw [hv] at h
          cases h
          obtain ⟨n, hn⟩ := validateOwned_ok hv
          exact ⟨first :: rest, n, decode_iff.mp hd, hn⟩

/-- **Only wrappers are recognised.** -/
theorem wraps_of_parseOwned {owned : OwnedProgram} (h : parseOwned sha256 raw = .ok (some owned)) :
    ∃ ms, compile owned.rules.reverse = .ok ms ∧ Wraps sha256 ms owned.nonce owned.original raw ∧
      trailerIndex ms ≤ u32Max ∧ (∀ m ∈ ms, m.Small) ∧
        owned.rules = (ms.map RuleMatch.rule).reverse := by
  obtain ⟨all, n, hd, hc, hemit⟩ := parseOwned_some h
  obtain ⟨rest, hrest⟩ := hd.drop n
  obtain ⟨is', hd', he'⟩ := hrest.canonical (encodeFrom_iff.mp hc)
  obtain ⟨is, ms, hdo, hne, hcomp, hE⟩ := emitOwned_ok.mp hemit
  obtain rfl := hd'.unique hdo
  have hw : Wraps sha256 ms owned.nonce owned.original raw :=
    ⟨compiled_of_compile hcomp, is', hne, hdo, he', hE⟩
  refine ⟨ms, hcomp, hw, ?_⟩
  by_cases hfit : trailerIndex ms ≤ u32Max
  · by_cases hs : ∀ m ∈ ms, m.Small
    · rw [parseOwned_small hw hfit hs] at h
      exact ⟨hfit, hs, congrArg OwnedProgram.rules (Option.some.inj (Except.ok.inj h)).symm⟩
    · rw [parseOwned_large hw hfit hs] at h
      cases h
  · rw [parseOwned_unfit hw (Nat.lt_of_not_le hfit)] at h
    cases h

/-- A wrapper is longer than its original. -/
theorem Wraps.length_lt (h : Wraps sha256 ms nonce original raw) :
    original.length < raw.length := by
  obtain ⟨-, is, -, -, he, hw⟩ := h
  obtain ⟨a, b, rfl, ha, hb⟩ := hw.split
  obtain ⟨t, o, rfl, ht, ho⟩ := hb.split
  obtain rfl := ho.unique he
  have hlen := (ht.decodes_of_wire (wire_map_marker _)).length
  rw [show ((trailerValues nonce).map marker).length = 4 from rfl, instructionSize] at hlen
  simp only [List.length_append]
  omega

/-- The index of the trailer, for a wrapper of bounded length. -/
theorem Wraps.trailerIndex_lt (h : Wraps sha256 ms nonce original raw) :
    instructionSize * trailerIndex ms < raw.length := by
  obtain ⟨is, -, -, -, hd⟩ := h.decodes
  have hlen := hd.length
  rw [wrapperCode_length, trailerLen, instructionSize] at hlen
  rw [instructionSize]
  omega

end Wrappers

end Filter
end Sda
