import DeviceAccess.Policy.Glob

/-!
# The 1.x matcher

The globs of 1.x were those of Go's `filepath.Match`. `Go.parse` reads a pattern by its documented
grammar, escapes and negated classes included, and `Go.Matches` is its documented meaning: `*` and
`?` do not match the separator, and a class matches whatever it lists.

`compile` accepts only patterns that both read alike (`Spelled`), and no class of these lists the
separator, so an accepted pattern means what it meant in 1.x (`accepted_means_same`).
-/

namespace Sda
namespace Policy

/-! ## The documented meaning -/

namespace Go

inductive Term where
  | char (c : Char)
  | anyChar
  | anySequence
  /-- A class, by the bounds of its ranges; a single character is a range of one. -/
  | anyWithin (negated : Bool) (ranges : List (Char × Char))
  deriving DecidableEq, Repr

/-- A character of a class: `c`, which is none of `\`, `-` and `]`, or `\` and any character. -/
def getEsc : List Char → Option (Char × List Char)
  | [] => none
  | c :: rest =>
    if c == '-' || c == ']' then none
    else if c == '\\' then
      match rest with
      | [] => none
      | c :: rest => some (c, rest)
    else some (c, rest)

/-- `character-range`: `lo` or `lo '-' hi`. -/
def readRange (chunk : List Char) : Option ((Char × Char) × List Char) := do
  let (lo, chunk) ← getEsc chunk
  match chunk with
  | '-' :: chunk => do
    let (hi, chunk) ← getEsc chunk
    some ((lo, hi), chunk)
  | chunk => some ((lo, lo), chunk)

/-- The ranges of a class and what follows its `]`. `items` says whether there is a range already.
-/
def readRanges : Nat → Bool → List Char → Option (List (Char × Char) × List Char)
  | 0, _, _ => none
  | fuel + 1, items, chunk =>
    if items && chunk.head? == some ']' then some ([], chunk.tail)
    else do
      let (first, chunk) ← readRange chunk
      let (rest, chunk) ← readRanges fuel true chunk
      some (first :: rest, chunk)

/-- Whether a class starts with `^`, and its ranges. -/
def readNegated : List Char → Bool × List Char
  | '^' :: rest => (true, rest)
  | rest => (false, rest)

def parseFrom : Nat → List Char → Option (List Term)
  | _, [] => some []
  | 0, _ :: _ => none
  | fuel + 1, c :: rest =>
    if c = '*' then (parseFrom fuel rest).map (.anySequence :: ·)
    else if c = '?' then (parseFrom fuel rest).map (.anyChar :: ·)
    else if c = '[' then do
      let (negated, chunk) := readNegated rest
      let (ranges, rest) ← readRanges (chunk.length + 1) false chunk
      (parseFrom fuel rest).map (.anyWithin negated ranges :: ·)
    else if c = '\\' then
      match rest with
      | [] => none
      | c :: rest => (parseFrom fuel rest).map (.char c :: ·)
    else (parseFrom fuel rest).map (.char c :: ·)

/-- The terms of a pattern, none for a malformed one. -/
def parse (pattern : Pattern) : Option (List Term) := parseFrom pattern.length pattern

/-- The name matches the terms. -/
inductive Matches : List Term → List Char → Prop
  | nil : Matches [] []
  | char (c : Char) {terms : List Term} {name : List Char} :
      Matches terms name → Matches (.char c :: terms) (c :: name)
  | anyChar {c : Char} {terms : List Term} {name : List Char} :
      c ≠ '/' → Matches terms name → Matches (.anyChar :: terms) (c :: name)
  | anySequence {front : List Char} {terms : List Term} {name : List Char} :
      '/' ∉ front → Matches terms name → Matches (.anySequence :: terms) (front ++ name)
  | anyWithin {c : Char} {negated : Bool} {ranges : List (Char × Char)} {terms : List Term}
      {name : List Char} :
      (ranges.any fun range => range.1 ≤ c && c ≤ range.2) ≠ negated → Matches terms name →
      Matches (.anyWithin negated ranges :: terms) (c :: name)

end Go

namespace Glob

/-! ## Classes -/

/-- The text of a class that `classBody` accepts. -/
inductive ClassText : List Char → List Specifier → Prop
  | nil : ClassText [] []
  | single {c : Char} {text : List Char} {items : List Specifier} :
      c ≠ ']' → c ≠ '-' → c ≠ '/' → text.head? ≠ some '-' → ClassText text items →
      ClassText (c :: text) (.single c :: items)
  | range {low high : Char} {text : List Char} {items : List Specifier} :
      low ≠ ']' → low ≠ '-' → high ≠ ']' → high ≠ '-' → ¬ (low ≤ '/' ∧ '/' ≤ high) →
      ClassText text items → ClassText (low :: '-' :: high :: text) (.range low high :: items)

theorem classBody_ok {fuel : Nat} {chars : List Char} {items : Bool} {out out' : Pattern}
    {rest : List Char} (h : classBody fuel chars items out = .ok (out', rest)) :
    ∃ text specs, chars = text ++ ']' :: rest ∧ out' = out ++ text ++ [']'] ∧ ClassText text specs ∧
      (items = false → text ≠ []) := by
  fun_induction classBody fuel chars items out with
  | case1 => cases h
  | case2 => cases h
  | case3 fuel low rest items out hend =>
    cases h
    simp only [Bool.and_eq_true, beq_iff_eq] at hend
    refine ⟨[], [], by rw [hend.1]; rfl, by simp, .nil, fun hno => ?_⟩
    rw [hend.2] at hno
    cases hno
  | case4 => cases h
  | case5 => cases h
  | case6 => cases h
  | case7 => cases h
  | case8 => cases h
  | case9 fuel low items out hend hdash hslash high rest hhigh hrange ih =>
    obtain ⟨text, specs, rfl, rfl, htext, -⟩ := ih h
    simp only [Bool.or_eq_true, beq_iff_eq, not_or, Bool.and_eq_true, decide_eq_true_eq] at *
    exact ⟨_, _, rfl, by simp, .range hdash.1 hdash.2 hhigh.1 hhigh.2 hrange htext,
      fun _ => List.cons_ne_nil _ _⟩
  | case10 fuel low items out hend hdash hslash chars hlone hpair ih =>
    obtain ⟨text, specs, rfl, rfl, htext, -⟩ := ih h
    simp only [Bool.or_eq_true, beq_iff_eq, not_or] at hdash hslash
    refine ⟨_, _, rfl, by simp, .single hdash.1 hdash.2 hslash ?_ htext, fun _ =>
      List.cons_ne_nil _ _⟩
    -- A dash after the character would have made a range.
    intro hhead
    obtain ⟨more, rfl⟩ := List.head?_eq_some_iff.mp hhead
    cases more with
    | nil => exact hpair _ _ rfl
    | cons high more => exact hpair _ _ rfl

namespace ClassText

variable {text : List Char} {items : List Specifier}

theorem specifiers (h : ClassText text items) : Glob.specifiers text = items := by
  induction h with
  | nil => rfl
  | @single c text items _ _ _ hnext _ ih =>
    rw [Glob.specifiers, ih]
    rintro high rest rfl
    exact hnext rfl
  | range _ _ _ _ _ _ ih => rw [Glob.specifiers, ih]

private theorem bracket_notMem (h : ClassText text items) : ']' ∉ text := by
  induction h with
  | nil => exact List.not_mem_nil
  | single hc _ _ _ _ ih => simp [hc.symm, ih]
  | range hlow _ hhigh _ _ _ ih => simp [hlow.symm, hhigh.symm, ih]

/-- No item lists the separator. -/
theorem sep_notMem (h : ClassText text items) : items.any (·.has '/') = false := by
  induction h with
  | nil => rfl
  | single _ _ hslash _ _ ih =>
    rw [List.any_cons, ih, Bool.or_false, Specifier.has]
    simpa using hslash.symm
  | range _ _ _ _ hrange _ ih =>
    rw [List.any_cons, ih, Bool.or_false, Specifier.has]
    simpa using hrange

end ClassText

/-- The bounds of an item. -/
def Specifier.bounds : Specifier → Char × Char
  | .single c => (c, c)
  | .range low high => (low, high)

theorem Specifier.has_iff (c : Char) (item : Specifier) :
    item.has c = (item.bounds.1 ≤ c && c ≤ item.bounds.2) := by
  cases item with
  | single d =>
    rw [has, bounds, Bool.eq_iff_iff]
    simp only [beq_iff_eq, Bool.and_eq_true, decide_eq_true_eq]
    exact ⟨fun h => h ▸ ⟨le_refl _, le_refl _⟩, fun h => le_antisymm h.2 h.1⟩
  | range low high => rfl

private theorem getEsc_plain {c : Char} {rest : List Char} (hb : c ≠ ']')
    (hd : c ≠ '-') (he : c ≠ '\\') :
    Go.getEsc (c :: rest) = some (c, rest) := by
  simp [Go.getEsc, hb, hd, he]

theorem ClassText.readRanges {text : List Char} {items : List Specifier} (h : ClassText text items)
    (he : '\\' ∉ text) {fuel : Nat} (hfuel : text.length < fuel) {first : Bool}
    (hfirst : first = false → text ≠ []) (rest : List Char) :
    Go.readRanges fuel first (text ++ ']' :: rest) = some (items.map Specifier.bounds, rest) := by
  induction h generalizing fuel first with
  | nil =>
    obtain ⟨fuel, rfl⟩ := Nat.exists_eq_add_of_lt hfuel
    have : first = true := by
      by_contra hno
      exact hfirst (Bool.eq_false_iff.mpr hno) rfl
    rw [this]
    rfl
  | @single c text items hb hd _ hnext _ ih =>
    obtain ⟨fuel, rfl⟩ : ∃ n, fuel = n + 1 := ⟨fuel - 1, by omega⟩
    rw [List.mem_cons, not_or] at he
    have hrange : Go.readRange (c :: text ++ ']' :: rest) = some ((c, c), text ++ ']' :: rest) := by
      rw [List.cons_append, Go.readRange, getEsc_plain hb hd (Ne.symm he.1)]
      cases text with
      | nil => rfl
      | cons d text =>
        have hdash : d ≠ '-' := fun heq => hnext (by rw [heq]; rfl)
        simp only [Option.bind_eq_bind, Option.bind_some, List.cons_append]
        split
        · rename_i heq
          exact absurd (List.cons.inj heq).1 hdash
        · rfl
    rw [List.length_cons] at hfuel
    rw [Go.readRanges, if_neg (by simp [hb]), hrange]
    simp only [Option.bind_eq_bind, Option.bind_some]
    rw [@ih he.2 fuel (by omega) true nofun]
    rfl
  | @range low high text items hlb hld hhb hhd _ _ ih =>
    obtain ⟨fuel, rfl⟩ : ∃ n, fuel = n + 1 := ⟨fuel - 1, by omega⟩
    simp only [List.mem_cons, not_or] at he
    have hrange : Go.readRange (low :: '-' :: high :: text ++ ']' :: rest) =
        some ((low, high), text ++ ']' :: rest) := by
      simp only [List.cons_append, Go.readRange, getEsc_plain hlb hld (Ne.symm he.1),
        getEsc_plain hhb hhd (Ne.symm he.2.2.1), Option.bind_eq_bind, Option.bind_some]
    simp only [List.length_cons] at hfuel
    rw [Go.readRanges, if_neg (by simp [hlb]), hrange]
    simp only [Option.bind_eq_bind, Option.bind_some]
    rw [@ih he.2.2.2 fuel (by omega) true nofun]
    rfl

/-! ## Patterns -/

/-- The spelling of an accepted pattern, token by token. -/
inductive Spelled : List Char → List Token → Prop
  | nil : Spelled [] []
  | char {c : Char} {chars : List Char} {tokens : List Token} :
      c ≠ '[' → c ≠ '*' → c ≠ '?' → c ≠ '\\' → Spelled chars tokens →
      Spelled (c :: chars) (.char c :: tokens)
  | anyChar {chars : List Char} {tokens : List Token} :
      Spelled chars tokens → Spelled ('?' :: chars) (.anyChar :: tokens)
  | anySequence {chars : List Char} {tokens : List Token} :
      Spelled chars tokens → Spelled ('*' :: chars) (.anySequence :: tokens)
  | anyWithin {text chars : List Char} {items : List Specifier} {tokens : List Token} :
      ClassText text items → text ≠ [] → text.head? ≠ some '^' → '\\' ∉ text →
      Spelled chars tokens →
      Spelled ('[' :: (text ++ ']' :: chars)) (.anyWithin items :: tokens)

theorem translateFrom_ok {fuel : Nat} {chars : List Char} {out out' : Pattern}
    (h : translateFrom fuel chars out = .ok out') (hfuel : chars.length ≤ fuel)
    (he : '\\' ∉ chars) :
    out' = out ++ chars ∧ ∃ tokens, Spelled chars tokens := by
  fun_induction translateFrom fuel chars out with
  | case1 chars out =>
    cases h
    rw [List.eq_nil_of_length_eq_zero (Nat.le_zero.mp hfuel)]
    exact ⟨(List.append_nil _).symm, [], .nil⟩
  | case2 => cases h; exact ⟨(List.append_nil _).symm, [], .nil⟩
  | case3 fuel c rest out hc ih =>
    rw [List.mem_cons, not_or] at he
    obtain ⟨rfl, tokens, htokens⟩ := ih h (by simpa using hfuel) he.2
    refine ⟨by simp, ?_⟩
    by_cases hstar : c = '*'
    · rw [hstar]
      exact ⟨_, .anySequence htokens⟩
    by_cases hany : c = '?'
    · rw [hany]
      exact ⟨_, .anyChar htokens⟩
    exact ⟨_, .char (by simpa using hc) hstar hany (Ne.symm he.1) htokens⟩
  | case4 => cases h
  | case5 => cases h
  | case6 fuel c out hc rest hbang hcaret ih =>
    obtain rfl : c = '[' := by simpa using hc
    cases hbody : classBody (rest.length + 1) rest false (out ++ ['[']) with
    | error e => rw [hbody] at h; cases h
    | ok read =>
      obtain ⟨text, items, rfl, hout, htext, hne⟩ := classBody_ok hbody
      rw [hbody] at h
      simp only [List.mem_cons, List.mem_append, not_or] at he
      simp only [List.length_cons, List.length_append] at hfuel
      obtain ⟨rfl, tokens, htokens⟩ := ih _ _ h (by omega) he.2.2.2
      refine ⟨by rw [hout]; simp, _, .anyWithin htext (hne rfl) (fun hhead => ?_) he.2.1 htokens⟩
      obtain ⟨more, rfl⟩ := List.head?_eq_some_iff.mp hhead
      exact hcaret _ rfl

namespace Spelled

variable {chars : List Char} {tokens : List Token}

/-- The crate reads the spelling as its tokens. -/
theorem parseFrom (h : Spelled chars tokens) {fuel : Nat} (hfuel : chars.length ≤ fuel) :
    Glob.parseFrom fuel chars = some tokens := by
  induction h generalizing fuel with
  | nil => cases fuel <;> rfl
  | char hclass hstar hany _ _ ih =>
    obtain ⟨fuel, rfl⟩ : ∃ n, fuel = n + 1 := ⟨fuel - 1, by simp at hfuel; omega⟩
    simp only [List.length_cons] at hfuel
    simp only [Glob.parseFrom, hany, hstar, hclass, if_false, ih (Nat.le_of_succ_le_succ hfuel),
      Option.map_some]
  | anyChar _ ih =>
    obtain ⟨fuel, rfl⟩ : ∃ n, fuel = n + 1 := ⟨fuel - 1, by simp at hfuel; omega⟩
    simp only [List.length_cons] at hfuel
    simp only [Glob.parseFrom, if_true, ih (Nat.le_of_succ_le_succ hfuel), Option.map_some]
  | anySequence _ ih =>
    obtain ⟨fuel, rfl⟩ : ∃ n, fuel = n + 1 := ⟨fuel - 1, by simp at hfuel; omega⟩
    simp only [List.length_cons] at hfuel
    have hne : ¬ '*' = '?' := by decide
    simp only [Glob.parseFrom, hne, if_false, if_true, ih (Nat.le_of_succ_le_succ hfuel),
      Option.map_some]
  | @anyWithin text chars items tokens htext hne _ _ _ ih =>
    obtain ⟨fuel, rfl⟩ : ∃ n, fuel = n + 1 := ⟨fuel - 1, by simp at hfuel; omega⟩
    simp only [List.length_cons, List.length_append] at hfuel
    obtain ⟨first, text, rfl⟩ := List.exists_cons_of_ne_nil hne
    have hin : ∀ c ∈ text, (c != ']') = true := fun c hc =>
      bne_iff_ne.mpr fun heq => htext.bracket_notMem (heq ▸ List.mem_cons_of_mem _ hc)
    have htake : (text ++ ']' :: chars).takeWhile (· != ']') = text := by
      rw [List.takeWhile_append_of_pos hin]
      simp
    have hdrop : (text ++ ']' :: chars).dropWhile (· != ']') = ']' :: chars := by
      rw [List.dropWhile_append_of_pos hin]
      simp
    have h₁ : ¬ '[' = '?' := by decide
    have h₂ : ¬ '[' = '*' := by decide
    have hmem : ']' ∈ text ++ ']' :: chars := by simp
    simp only [List.cons_append, Glob.parseFrom, h₁, h₂, if_false, if_true, hmem, htake, hdrop,
      List.drop_one, List.tail_cons, htext.specifiers, @ih fuel (by omega), Option.map_some]

end Spelled

/-- The same token in the 1.x matcher. -/
def Token.term : Token → Go.Term
  | .char c => .char c
  | .anyChar => .anyChar
  | .anySequence => .anySequence
  | .anyWithin items => .anyWithin false (items.map Specifier.bounds)

namespace Spelled

variable {chars : List Char} {tokens : List Token}

/-- The 1.x matcher reads it as the same. -/
theorem goParseFrom (h : Spelled chars tokens) {fuel : Nat} (hfuel : chars.length ≤ fuel) :
    Go.parseFrom fuel chars = some (tokens.map Token.term) := by
  induction h generalizing fuel with
  | nil => rw [Go.parseFrom]; rfl
  | char hclass hstar hany hesc _ ih =>
    obtain ⟨fuel, rfl⟩ : ∃ n, fuel = n + 1 := ⟨fuel - 1, by simp at hfuel; omega⟩
    simp only [List.length_cons] at hfuel
    simp only [Go.parseFrom, hany, hstar, hclass, hesc, if_false, ih (Nat.le_of_succ_le_succ hfuel),
      Option.map_some]
    rfl
  | anyChar _ ih =>
    obtain ⟨fuel, rfl⟩ : ∃ n, fuel = n + 1 := ⟨fuel - 1, by simp at hfuel; omega⟩
    simp only [List.length_cons] at hfuel
    have hne : ¬ '?' = '*' := by decide
    simp only [Go.parseFrom, hne, if_false, if_true, ih (Nat.le_of_succ_le_succ hfuel),
      Option.map_some]
    rfl
  | anySequence _ ih =>
    obtain ⟨fuel, rfl⟩ : ∃ n, fuel = n + 1 := ⟨fuel - 1, by simp at hfuel; omega⟩
    simp only [List.length_cons] at hfuel
    simp only [Go.parseFrom, if_true, ih (Nat.le_of_succ_le_succ hfuel), Option.map_some]
    rfl
  | @anyWithin text chars items tokens htext hne hcaret hesc _ ih =>
    obtain ⟨fuel, rfl⟩ : ∃ n, fuel = n + 1 := ⟨fuel - 1, by simp at hfuel; omega⟩
    simp only [List.length_cons, List.length_append] at hfuel
    have h₁ : ¬ '[' = '?' := by decide
    have h₂ : ¬ '[' = '*' := by decide
    have hnegated : Go.readNegated (text ++ ']' :: chars) = (false, text ++ ']' :: chars) := by
      unfold Go.readNegated
      split
      · rename_i rest heq
        obtain ⟨first, text, rfl⟩ := List.exists_cons_of_ne_nil hne
        rw [(List.cons.inj heq).1] at hcaret
        exact absurd rfl hcaret
      · rfl
    have hranges := @ClassText.readRanges _ _ htext hesc ((text ++ ']' :: chars).length + 1)
      (by simp only [List.length_append]; omega) false (fun _ => hne) chars
    simp only [Go.parseFrom, h₁, h₂, if_false, if_true, hnegated, hranges, Option.bind_eq_bind,
      Option.bind_some, @ih fuel (by omega), Option.map_some]
    rfl

/-- No class of an accepted pattern lists the separator. -/
theorem sep_notMem (h : Spelled chars tokens) {items : List Specifier}
    (hm : .anyWithin items ∈ tokens) : items.any (·.has '/') = false := by
  induction h with
  | nil => cases hm
  | char _ _ _ _ _ ih | anyChar _ ih | anySequence _ ih => exact ih (by simpa using hm)
  | anyWithin htext _ _ _ _ ih =>
    rcases List.mem_cons.mp hm with heq | hm
    · cases heq
      exact htext.sep_notMem
    · exact ih hm

end Spelled

/-! ## Matching -/

theorem star_iff {rest : List Char → Bool} {name : List Char} :
    star rest name = true ↔ ∃ front back, name = front ++ back ∧ '/' ∉ front ∧
    rest back = true := by
  induction name with
  | nil => simp [star]
  | cons c name ih =>
    rw [star, Bool.or_eq_true, Bool.and_eq_true, ih]
    constructor
    · rintro (h | ⟨hc, front, back, rfl, hfront, hback⟩)
      · exact ⟨[], c :: name, rfl, List.not_mem_nil, h⟩
      · refine ⟨c :: front, back, rfl, ?_, hback⟩
        rw [List.mem_cons, not_or]
        exact ⟨fun heq => by simp [← heq] at hc, hfront⟩
    · rintro ⟨front, back, heq, hfront, hback⟩
      cases front with
      | nil => exact .inl (by rw [heq]; exact hback)
      | cons d front =>
        obtain ⟨rfl, rfl⟩ := List.cons.inj heq
        rw [List.mem_cons, not_or] at hfront
        exact .inr ⟨by simpa using Ne.symm hfront.1, front, back, rfl, hfront.2, hback⟩

/-- A class that does not list the separator takes what it lists. -/
theorem takes_anyWithin {items : List Specifier} (hsep : items.any (·.has '/') = false) (c : Char) :
    (Token.anyWithin items).takes c =
      (items.map Specifier.bounds).any fun range => range.1 ≤ c && c ≤ range.2 := by
  have hany : (items.map Specifier.bounds).any (fun range => range.1 ≤ c && c ≤ range.2) =
      items.any (·.has c) := by
    rw [List.any_map]
    exact congrArg items.any (funext fun item => (item.has_iff c).symm)
  rw [hany, Token.takes]
  by_cases hc : c = '/'
  · rw [hc, hsep]
    rfl
  · rw [bne_iff_ne.mpr hc, Bool.true_and]

/-- Any other token takes one character. -/
theorem matchTokens_cons {token : Token} {tokens : List Token} {name : List Char}
    (ht : token ≠ .anySequence) :
    matchTokens (token :: tokens) name = true ↔
      ∃ c rest, name = c :: rest ∧ token.takes c = true ∧ matchTokens tokens rest = true := by
  cases name with
  | nil =>
    have hnil : matchTokens (token :: tokens) [] = false := by
      cases token with
      | anySequence => exact absurd rfl ht
      | _ => rfl
    simp [hnil]
  | cons c name =>
    rw [matchTokens, Bool.and_eq_true]
    · constructor
      · exact fun h => ⟨c, name, rfl, h⟩
      · rintro ⟨d, rest, heq, h⟩
        cases heq
        exact h
    · exact ht

theorem matchTokens_iff {tokens : List Token}
    (hsep : ∀ items, .anyWithin items ∈ tokens → items.any (·.has '/') = false) {name : List Char} :
    matchTokens tokens name = true ↔ Go.Matches (tokens.map Token.term) name := by
  induction tokens generalizing name with
  | nil =>
    rw [matchTokens, List.isEmpty_iff]
    exact ⟨fun h => h ▸ .nil, fun h => by cases h; rfl⟩
  | cons token tokens ih =>
    have ih := fun name => @ih (fun items hm => hsep items (List.mem_cons_of_mem _ hm)) name
    cases token with
    | char d =>
      rw [matchTokens_cons (show Token.char d ≠ .anySequence from nofun)]
      constructor
      · rintro ⟨c, rest, rfl, hc, h⟩
        rw [beq_iff_eq.mp hc]
        exact .char d ((ih rest).mp h)
      · intro h
        cases h with
        | char _ h => exact ⟨d, _, rfl, beq_self_eq_true d, (ih _).mpr h⟩
    | anyChar =>
      rw [matchTokens_cons (show Token.anyChar ≠ .anySequence from nofun)]
      constructor
      · rintro ⟨c, rest, rfl, hc, h⟩
        exact .anyChar (bne_iff_ne.mp hc) ((ih rest).mp h)
      · intro h
        cases h with
        | anyChar hc h => exact ⟨_, _, rfl, bne_iff_ne.mpr hc, (ih _).mpr h⟩
    | anySequence =>
      rw [matchTokens, star_iff]
      constructor
      · rintro ⟨front, back, rfl, hfront, hback⟩
        exact .anySequence hfront ((ih back).mp hback)
      · intro h
        cases h with
        | @anySequence front _ back hfront hback =>
          exact ⟨front, back, rfl, hfront, (ih back).mpr hback⟩
    | anyWithin items =>
      have htakes := takes_anyWithin (hsep items List.mem_cons_self)
      rw [matchTokens_cons (show Token.anyWithin items ≠ .anySequence from nofun)]
      constructor
      · rintro ⟨c, rest, rfl, hc, h⟩
        rw [htakes] at hc
        exact .anyWithin (by rw [hc]; exact Bool.noConfusion) ((ih rest).mp h)
      · intro h
        cases h with
        | anyWithin hc h =>
          exact ⟨_, _, rfl, by rw [htakes]; exact Bool.ne_false_iff.mp hc, (ih _).mpr h⟩

/-- Only a separator of the pattern matches one of the name. -/
theorem matchTokens_seps {tokens : List Token} {name : List Char}
    (h : matchTokens tokens name = true) :
    name.count '/' = tokens.count (.char '/') := by
  induction tokens generalizing name with
  | nil =>
    rw [matchTokens, List.isEmpty_iff] at h
    rw [h]
    rfl
  | cons token tokens ih =>
    by_cases ht : token = .anySequence
    · rw [ht, matchTokens] at h
      obtain ⟨front, back, rfl, hfront, hback⟩ := star_iff.mp h
      rw [ht, List.count_append, List.count_eq_zero.mpr hfront, Nat.zero_add, ih hback,
        List.count_cons_of_ne (show Token.anySequence ≠ .char '/' from nofun)]
    · obtain ⟨c, rest, rfl, hc, h⟩ := (matchTokens_cons ht).mp h
      rw [List.count_cons, List.count_cons, ih h]
      congr 1
      cases token with
      | char d =>
        obtain rfl : c = d := beq_iff_eq.mp hc
        simp
      | anySequence => exact absurd rfl ht
      | anyChar => simpa [Token.takes] using hc
      | anyWithin items => simpa using (Bool.and_eq_true_iff.mp hc).1

/-- **An accepted glob means what it meant in 1.x**, and never crosses a directory. -/
theorem accepted_means_same {pattern : Pattern} {tokens : List Token}
    (h : compile pattern = .ok tokens) :
    translate pattern = .ok pattern ∧
      ∃ terms, Go.parse pattern = some terms ∧ ∀ name,
        (globMatches pattern name = true ↔ Go.Matches terms name) ∧
        (globMatches pattern name = true → name.count '/' = tokens.count (.char '/')) := by
  have hmatches : ∀ name, globMatches pattern name = matchTokens tokens name := by
    intro name
    rw [globMatches, h]
  cases ht : translate pattern with
  | error e =>
    rw [compile, ht] at h
    cases h
  | ok translated =>
    have hfrom : translateFrom pattern.length pattern [] = .ok translated ∧ '\\' ∉ pattern := by
      unfold translate at ht
      split at ht
      · cases ht
      · rename_i hesc
        split at ht
        · cases ht
        · exact ⟨ht, by simpa using hesc⟩
    obtain ⟨hsame, spelled, hspelled⟩ := translateFrom_ok hfrom.1 (Nat.le_refl _) hfrom.2
    rw [List.nil_append] at hsame
    subst hsame
    have hparse : parse translated = some spelled := hspelled.parseFrom (Nat.le_refl _)
    obtain rfl : spelled = tokens := by
      rw [compile, ht] at h
      simp only [bind, Except.bind, hparse] at h
      exact Except.ok.inj h
    refine ⟨rfl, _, hspelled.goParseFrom (Nat.le_refl _), fun name => ?_⟩
    rw [hmatches]
    exact ⟨matchTokens_iff fun items hm => hspelled.sep_notMem hm, matchTokens_seps⟩

/-- The partitions of three disks. -/
theorem accepted_means_same_disks :
    ∃ terms, Go.parse "/dev/sd[a-c]*".toList = some terms ∧
    Go.Matches terms "/dev/sdb1".toList := by
  obtain ⟨-, terms, hterms, hmatches⟩ := accepted_means_same
    (show compile "/dev/sd[a-c]*".toList = .ok [.char '/', .char 'd', .char 'e',
      .char 'v', .char '/',
      .char 's', .char 'd', .anyWithin [.range 'a' 'c'], .anySequence] by decide +kernel)
  exact ⟨terms, hterms, (hmatches _).1.mp (by decide +kernel)⟩

end Glob
end Policy
end Sda
