import DeviceAccess.Config.Document
import DeviceAccess.Lib.Clean

/-!
# When an accepted config file says what it means

The decoder goes on after a type error and fails at the end, so a decode that succeeded recorded no
error anywhere (`Clean`). Each of its functions then has one lemma for what it did: a string is the
name its node stands for, unless it is a null (`unmarshal_string`); a value whose node has the shape
of its setting is what is set (`unmarshal_reads`); the loop over the entries sets each key once
(`entries_says`). `says_iff_plain` puts the two passes together.
-/

namespace Sda
namespace Config

open Sda.Action (Keeps)

namespace Decoder

variable {n : Nat} {α : Type} {floats : Floats} {t : Tree n}

/-- No error is recorded. -/
def Unmarked (d : Decoder n) : Prop := d.errors = []

/-- The step ends with a value and no recorded error. -/
abbrev Clean (x : Decode n α) (a : α) : Prop := Action.Clean Unmarked x a

/-! ## Recorded errors stay -/

theorem keeps_append (errors : List TypeError) :
    Keeps Unmarked (.modify (fun d => { d with errors := d.errors ++ errors }) : Decode n Unit) :=
  .modify fun _ h => (List.append_eq_nil_iff.mp h).1

theorem keeps_push (error : TypeError) : Keeps Unmarked (push error : Decode n Unit) :=
  keeps_append [error]

theorem keeps_count : Keeps Unmarked (count floats : Decode n Unit) := by
  refine .bind (.modify fun _ h => h) fun _ => .bind .get fun d => ?_
  split
  · exact .fail _
  · exact .pure _

theorem keeps_typeError (node : Node n) (tag : Tag) (target : Target) :
    Keeps Unmarked (typeError node tag target) := keeps_push _

theorem keeps_scalar (node : Node n) (target : Target) :
    Keeps Unmarked (scalar floats node target) := by
  refine .bind (.ofExcept _) fun found => ?_
  split
  · exact .pure _
  · split
    · exact .pure _
    · exact .bind (keeps_typeError _ _ _) fun _ => .pure _

theorem keeps_inAlias {index : Fin n} {step : Decode n α} (h : Keeps Unmarked step) :
    Keeps Unmarked (inAlias floats index step) :=
  .bind (.modify fun _ h => h) fun _ => .bind keeps_count fun _ => .bind h fun _ =>
    .bind (.modify fun _ h => h) fun _ => .pure _

section Recursion

variable {unmarshal : Fin n → Target → Decode n (Bool × Target)}
  (hkeeps : ∀ index target, Keeps Unmarked (unmarshal index target))

include hkeeps

theorem keeps_items (list : List (Fin n)) (found : List (List Char)) :
    Keeps Unmarked (items floats unmarshal list found) := by
  induction list generalizing found with
  | nil => exact .pure _
  | cons item rest ih => exact .bind keeps_count fun _ => .bind (hkeeps _ _) fun _ => ih _

private theorem keeps_sequence (node : Node n) (target : Target) :
    Keeps Unmarked (sequence floats unmarshal node target) := by
  unfold sequence
  split
  · exact .bind (keeps_items hkeeps _ _) fun _ => .pure _
  · exact .bind (keeps_typeError _ _ _) fun _ => .pure _

theorem keeps_entry (key value : Fin n) (name : List Char) (done : List Key) (schema : FileSchema) :
    Keeps Unmarked (entry floats t unmarshal key value name done schema) := by
  unfold entry
  split
  · exact .bind (keeps_push _) fun _ => .pure _
  split
  · exact .bind (keeps_push _) fun _ => .pure _
  · exact .bind keeps_count fun _ => .bind (hkeeps _ _) fun _ => .pure _

theorem keeps_entries (list : List (Fin n × Fin n)) (done : List Key) (schema : FileSchema) :
    Keeps Unmarked (entries floats t unmarshal list done schema) := by
  induction list generalizing done schema with
  | nil => exact .pure _
  | cons e rest ih =>
    refine .bind keeps_count fun _ => .bind (hkeeps _ _) fun out => ?_
    dsimp only
    split
    · exact .bind (keeps_entry hkeeps _ _ _ _ _) fun _ => ih _ _
    · exact ih _ _

theorem keeps_mapping (node : Node n) (target : Target) :
    Keeps Unmarked (mapping floats t unmarshal node target) := by
  unfold mapping
  split
  · split
    · exact .bind (keeps_entries hkeeps _ _ _) fun _ => .pure _
    · exact .bind (keeps_typeError _ _ _) fun _ => .pure _
  · exact .bind (keeps_append _) fun _ => .pure _

theorem keeps_unmarshalValue (index : Fin n) (target : Target) :
    Keeps Unmarked (unmarshalValue floats t unmarshal index target) := by
  unfold unmarshalValue
  split
  · exact keeps_scalar _ _
  · exact keeps_sequence hkeeps _ _
  · exact keeps_mapping hkeeps _ _
  · exact .pure _

theorem keeps_unmarshalAlias (index : Fin n) (target : Target) :
    Keeps Unmarked (unmarshalAlias floats t unmarshal index target) := by
  refine .bind .get fun d => ?_
  split
  · exact .fail _
  split
  · exact .pure _
  · exact keeps_inAlias (hkeeps _ _)

theorem keeps_prepare (index : Fin n) (target : Target) :
    Keeps Unmarked (prepare floats t unmarshal index target) := by
  unfold prepare
  split
  · split
    · exact keeps_unmarshalValue hkeeps _ _
    · exact .bind (keeps_unmarshalValue hkeeps _ _) fun _ => .pure _
  · exact keeps_unmarshalValue hkeeps _ _

end Recursion

theorem keeps_unmarshal (fuel : Nat) (index : Fin n) (target : Target) :
    Keeps Unmarked (unmarshal floats t fuel index target) := by
  induction fuel generalizing index target with
  | zero => exact .fail _
  | succ fuel ih =>
    rw [unmarshal]
    split
    · exact keeps_unmarshalAlias ih _ _
    · exact keeps_prepare ih _ _

/-! ## Scalars -/

theorem not_clean_append {errors : List TypeError} (hne : errors ≠ []) {u : Unit}
    (h : Clean (.modify (fun d => { d with errors := d.errors ++ errors }) : Decode n Unit) u) :
    False := by
  obtain ⟨d, hd⟩ := Action.Clean.modify_inv h
  exact hne (List.append_eq_nil_iff.mp hd).2

theorem not_clean_push {error : TypeError} {u : Unit} (h : Clean (push error : Decode n Unit) u) :
    False := not_clean_append (List.cons_ne_nil _ _) h

/-- No run through a type error is clean. -/
theorem not_clean_typeError {node : Node n} {tag : Tag} {target : Target} {r : Bool × Target}
    (h : Clean (typeError node tag target >>= fun _ => pure (false, target)) r) : False := by
  obtain ⟨_, herror, -⟩ := Action.Clean.bind_inv h fun _ => .pure _
  exact not_clean_push herror

/-- A scalar is a null, or text, or something that is read by its spelling and stands for it. -/
theorem reading_ok {node : Node n} (hkind : node.kind = .scalar) {found : Option (Tag × Resolved)}
    (h : reading floats node = .ok found) :
    (node.isNull ∧ ∃ tag, found = some (tag, .null)) ∨
      ∃ name tag resolved, found = some (tag, resolved) ∧ resolved ≠ .null ∧ node.name = some name ∧
        (tag = .binary → resolved = .text name) ∧ (tag ≠ .binary → name = node.value) := by
  unfold reading at h
  split at h
  · case isTrue hstr =>
    cases h
    have hnull : node.isNull = false := by
      simp only [Node.indicatedString, Node.isNull] at hstr ⊢
      rcases htag : node.tag with _ | tag <;> simp_all
    have hbinary : node.tag ≠ some .binary := by
      simp only [Node.indicatedString] at hstr
      rcases htag : node.tag with _ | tag <;> simp_all
    exact .inr ⟨node.value, .str, _, rfl, nofun, by simp [Node.name, hkind, hnull, hbinary], nofun,
      fun _ => rfl⟩
  · case isFalse hstr =>
    split at h
    · cases h
    · case h_2 tag resolved hresolve =>
      split at h
      · case isTrue hbinary =>
        have htag := tag_of_resolve_binary hresolve hbinary
        rw [htag, resolve_binary] at hresolve
        cases hresolve
        simp only at h
        split at h
        · case h_1 decoded hdecoded =>
          cases h
          refine .inr ⟨Text.fromUtf8Lossy decoded, .binary, _, rfl, nofun, ?_, fun _ => rfl,
            fun hne => absurd rfl hne⟩
          simp [Node.name, Node.isNull, hkind, htag, hdecoded]
        · cases h
      · case isFalse hbinary =>
        cases h
        have hnull := resolve_null_iff hresolve
        by_cases hresolved : resolved = .null
        · refine .inl ⟨?_, tag, by rw [hresolved]⟩
          rcases hnull.mp hresolved with htag | ⟨htag, hmem⟩
          · simp [Node.isNull, htag]
          · simp_all [Node.isNull, Node.indicatedString]
        · refine .inr ⟨node.value, tag, resolved, rfl, hresolved, ?_, fun h => absurd h hbinary,
            fun _ => rfl⟩
          have htag : node.tag ≠ some .binary := by
            intro htag
            rw [htag, resolve_binary] at hresolve
            cases hresolve
            exact hbinary rfl
          have hnot : node.isNull = false := by
            rw [Bool.eq_false_iff]
            intro hn
            refine hresolved (hnull.mpr ?_)
            simp only [Node.isNull, Bool.or_eq_true, Bool.and_eq_true, decide_eq_true_eq] at hn
            exact hn.imp id fun hn => ⟨hn.1.1, hn.2⟩
          simp [Node.name, hkind, hnot, htag]

/-- A scalar whose reading is known: what is placed, when nothing is recorded. -/
theorem scalar_inv {node : Node n} {target : Target} {r : Bool × Target}
    (h : Clean (scalar floats node target) r) :
    ∃ found, reading floats node = .ok found ∧
      ∀ tag resolved, found = some (tag, resolved) → place node tag resolved target = some r := by
  obtain ⟨found, hread, hplace⟩ := Action.Clean.bind_inv h fun found => by
    split
    · exact .pure _
    · split
      · exact .pure _
      · exact .bind (keeps_typeError _ _ _) fun _ => .pure _
  refine ⟨found, Action.Clean.ofExcept_inv hread, ?_⟩
  rintro tag resolved rfl
  dsimp only at hplace
  split at hplace
  · case h_1 done hdone =>
    rw [hdone, Action.Clean.pure_inv hplace]
  · exact (not_clean_typeError hplace).elim

/-- A scalar that is decoded into a string is a null, which leaves it, or the name it stands for. -/
theorem scalar_string {node : Node n} (hkind : node.kind = .scalar) {s : List Char} {set : Bool}
    {out : Target} (h : Clean (scalar floats node (.string s)) (set, out)) :
    (node.isNull ∧ set = false) ∨ ∃ name, node.name = some name ∧ set = true ∧
    out = .string name := by
  obtain ⟨found, hread, hplace⟩ := scalar_inv h
  rcases reading_ok hkind hread with ⟨hnull, tag, rfl⟩ | ⟨name, tag, resolved, rfl, hne,
    hname, hb, hv⟩
  · have hdone := hplace tag .null rfl
    unfold place at hdone
    rw [if_pos rfl] at hdone
    cases hdone
    exact .inl ⟨hnull, rfl⟩
  · refine .inr ⟨name, hname, ?_⟩
    have hdone := hplace tag resolved rfl
    unfold place at hdone
    rw [if_neg hne] at hdone
    by_cases hbinary : tag = .binary
    · subst hbinary
      obtain rfl := hb rfl
      cases hdone
      exact ⟨rfl, rfl⟩
    · obtain rfl := hv hbinary
      cases resolved with
      | text text =>
        simp only [if_neg hbinary] at hdone
        cases hdone
        exact ⟨rfl, rfl⟩
      | _ =>
        cases hdone
        exact ⟨rfl, rfl⟩

/-- A boolean that is decoded into one. -/
theorem scalar_bool {node : Node n} (htag : node.tag = some .bool) {flag : Bool} {r : Bool × Target}
    (h : Clean (scalar floats node (.bool flag)) r) :
    ∃ flag : Bool, r = (true, .bool flag) ∧
      node.value ∈ if flag then trueSpellings else falseSpellings := by
  obtain ⟨found, hread, hplace⟩ := scalar_inv h
  have hstr : node.indicatedString = false := by simp [Node.indicatedString, htag]
  rw [reading, hstr, if_neg Bool.false_ne_true] at hread
  split at hread
  · cases hread
  · case h_2 tag resolved hresolve =>
    rw [htag] at hresolve
    rcases resolve_bool hresolve with ⟨hfound, hmem⟩ | ⟨hfound, hmem⟩
    all_goals
      cases hfound
      rw [if_neg (show Tag.bool ≠ .binary from nofun)] at hread
      cases hread
      have hdone := hplace _ _ rfl
      rw [place, if_neg (show Resolved.bool _ ≠ .null from nofun)] at hdone
      cases hdone
      exact ⟨_, rfl, hmem⟩

/-! ## Values -/

theorem inAlias_inv {index : Fin n} {step : Decode n α} {a : α} (hkeeps : Keeps Unmarked step)
    (h : Clean (inAlias floats index step) a) : Clean step a := by
  obtain ⟨_, -, h⟩ := Action.Clean.bind_inv h fun _ => .bind keeps_count fun _ =>
    .bind hkeeps fun _ =>
    .bind (.modify fun _ h => h) fun _ => .pure _
  obtain ⟨_, -, h⟩ := Action.Clean.bind_inv h fun _ => .bind hkeeps fun _ =>
    .bind (.modify fun _ h => h) fun _ => .pure _
  obtain ⟨b, hstep, h⟩ := Action.Clean.bind_inv h fun _ => .bind (.modify fun _ h => h) fun _ =>
    .pure _
  obtain ⟨_, -, h⟩ := Action.Clean.bind_inv h fun _ => .pure _
  rw [Action.Clean.pure_inv h]
  exact hstep

theorem unmarshalAlias_inv {unmarshal : Fin n → Target → Decode n (Bool × Target)}
    (hkeeps : ∀ index target, Keeps Unmarked (unmarshal index target)) {index aliased : Fin n}
    (haliased : (t.nodes index).aliased = some aliased) {target : Target} {r : Bool × Target}
    (h : Clean (unmarshalAlias floats t unmarshal index target) r) :
    Clean (unmarshal aliased target) r := by
  obtain ⟨d, -, h⟩ := Action.Clean.bind_inv h fun d => by
    split
    · exact .fail _
    split
    · exact .pure _
    · exact keeps_inAlias (hkeeps _ _)
  split at h
  · exact (Action.Clean.fail_inv h).elim
  · rw [haliased] at h
    exact inAlias_inv (hkeeps _ _) h

/-- What is decoded is the node an alias stands for. -/
theorem unmarshal_follow {fuel : Nat} {index : Fin n} {target : Target} {r : Bool × Target}
    (h : Clean (unmarshal floats t fuel index target) r) :
    ∃ fuel', Clean (prepare floats t (unmarshal floats t fuel') (t.follow index) target) r := by
  have hdirect {fuel : Nat} {index : Fin n} (hkind : (t.nodes index).kind ≠ .alias)
      (h : Clean (unmarshal floats t fuel index target) r) :
      ∃ fuel', Clean (prepare floats t (unmarshal floats t fuel') index target) r := by
    cases fuel with
    | zero => exact (Action.Clean.fail_inv h).elim
    | succ fuel =>
      rw [unmarshal, if_neg hkind] at h
      exact ⟨fuel, h⟩
  by_cases hkind : (t.nodes index).kind = .alias
  · obtain ⟨aliased, haliased, hne⟩ := t.anchored index hkind
    rw [Tree.follow_alias hkind haliased]
    cases fuel with
    | zero => exact (Action.Clean.fail_inv h).elim
    | succ fuel =>
      rw [unmarshal, if_pos hkind] at h
      exact hdirect hne (unmarshalAlias_inv (keeps_unmarshal fuel) haliased h)
  · rw [Tree.follow_of_ne hkind]
    exact hdirect hkind h

/-- Only a scalar is decoded into a string without a type error. -/
theorem prepare_string {unmarshal : Fin n → Target → Decode n (Bool × Target)} {index : Fin n}
    (hkind : (t.nodes index).kind ≠ .alias) {s : List Char} {r : Bool × Target}
    (h : Clean (prepare floats t unmarshal index (.string s)) r) :
    (t.nodes index).kind = .scalar ∧ Clean (scalar floats (t.nodes index) (.string s)) r := by
  simp only [prepare, unmarshalValue] at h
  split at h
  · case h_1 hscalar => exact ⟨hscalar, h⟩
  · exact (not_clean_typeError h).elim
  · unfold mapping at h
    split at h
    · exact (not_clean_typeError h).elim
    · case h_2 found hfound =>
      obtain ⟨_, h, -⟩ := Action.Clean.bind_inv h fun _ => .pure _
      exact (not_clean_append hfound h).elim
  · case h_4 halias => exact absurd halias hkind

/-- A node that is decoded into a string stands for a scalar: a null, which leaves the string, or a
name. -/
theorem unmarshal_string {fuel : Nat} {index : Fin n} {s : List Char} {set : Bool} {out : Target}
    (h : Clean (unmarshal floats t fuel index (.string s)) (set, out)) :
    (t.nodes (t.follow index)).kind = .scalar ∧
      (((t.nodes (t.follow index)).isNull ∧ set = false) ∨
        ∃ name, t.keyName index = some name ∧ set = true ∧ out = .string name) := by
  obtain ⟨fuel', h⟩ := unmarshal_follow h
  obtain ⟨hkind, h⟩ := prepare_string (t.follow_kind index) h
  exact ⟨hkind, scalar_string hkind h⟩

/-- A node that is a string is decoded to its text. -/
theorem unmarshal_text {fuel : Nat} {index : Fin n}
    (htag : (t.nodes (t.follow index)).tag = some .str) {s : List Char} {set : Bool} {out : Target}
    (h : Clean (unmarshal floats t fuel index (.string s)) (set, out)) :
    set = true ∧ out = .string (t.nodes (t.follow index)).value := by
  obtain ⟨hkind, hnull | ⟨name, hname, hset, hout⟩⟩ := unmarshal_string h
  · simp [Node.isNull, htag] at hnull
  · have hvalue : t.keyName index = some (t.nodes (t.follow index)).value := by
      simp [Tree.keyName, Node.name, Node.isNull, hkind, htag]
    rw [hvalue] at hname
    cases hname
    exact ⟨hset, hout⟩

/-- The items of a list of strings, all of them in order. -/
theorem items_texts {fuel : Nat} {list : List (Fin n)} {found texts : List (List Char)}
    (hshape : ∀ item ∈ list, t.hasScalarShape (t.follow item) .nonEmptyString)
    (h : Clean (items floats (unmarshal floats t fuel) list found) texts) :
    ∃ more, texts = found ++ more ∧
      List.Forall₂ (fun item text => t.IsText (t.follow item) text ∧ text ≠ []) list more := by
  induction list generalizing found with
  | nil => exact ⟨[], by rw [Action.Clean.pure_inv h, List.append_nil], .nil⟩
  | cons item rest ih =>
    obtain ⟨_, -, h⟩ := Action.Clean.bind_inv h fun _ =>
      .bind (keeps_unmarshal _ _ _) fun _ => keeps_items (keeps_unmarshal fuel) _ _
    obtain ⟨⟨set, out⟩, hitem, h⟩ := Action.Clean.bind_inv h fun _ =>
      keeps_items (keeps_unmarshal fuel) _ _
    have hfirst := hshape item List.mem_cons_self
    simp only [Tree.hasScalarShape, Bool.and_eq_true, decide_eq_true_eq, Bool.not_eq_true',
      List.isEmpty_eq_false_iff] at hfirst
    obtain ⟨rfl, rfl⟩ := unmarshal_text hfirst.1.2 hitem
    obtain ⟨more, rfl, hmore⟩ := ih (fun item hitem => hshape item (List.mem_cons_of_mem _ hitem)) h
    refine ⟨_ :: more, ?_, .cons ⟨⟨hfirst.1.1, hfirst.1.2, rfl⟩, hfirst.2⟩ hmore⟩
    rw [if_pos rfl, List.append_assoc]
    rfl

/-- A boolean is decoded to what it is spelled as. -/
theorem unmarshal_bool {fuel : Nat} {index : Fin n} {value : Option Bool}
    (hkind : (t.nodes (t.follow index)).kind = .scalar)
    (htag : (t.nodes (t.follow index)).tag = some .bool) {r : Bool × Target}
    (h : Clean (unmarshal floats t fuel index (.optionalBool value)) r) :
    t.Reads (t.follow index) .bool r.2 := by
  obtain ⟨fuel', h⟩ := unmarshal_follow h
  have hshort : (t.nodes (t.follow index)).shortTag ≠ some .null := by
    simp [Node.shortTag, Node.indicatedString, htag]
  simp only [prepare, if_neg hshort, unmarshalValue, hkind] at h
  obtain ⟨⟨set, out⟩, hscalar, h⟩ := Action.Clean.bind_inv h fun _ => .pure _
  obtain ⟨flag, hout, hspelled⟩ := scalar_bool htag hscalar
  cases hout
  rw [Action.Clean.pure_inv h]
  exact ⟨hkind, htag, hspelled⟩

/-- A list of strings is decoded to all of them. -/
theorem unmarshal_list {fuel : Nat} {index : Fin n} {value : Option (List (List Char))}
    (hshape : t.hasShape (t.follow index) .nonEmptyStringList) {r : Bool × Target}
    (h : Clean (unmarshal floats t fuel index (.list value)) r) :
    t.Reads (t.follow index) .nonEmptyStringList r.2 := by
  obtain ⟨fuel', h⟩ := unmarshal_follow h
  obtain ⟨hkind, hitems⟩ := Tree.hasShape_list hshape
  simp only [prepare, unmarshalValue, hkind, sequence] at h
  obtain ⟨texts, hfound, h⟩ := Action.Clean.bind_inv h fun _ => .pure _
  obtain ⟨more, rfl, hmore⟩ := items_texts hitems hfound
  rw [Action.Clean.pure_inv h]
  exact ⟨hkind, hmore⟩

/-- A value of the shape of its setting is what is set. -/
theorem unmarshal_reads {fuel : Nat} {index : Fin n} {shape : Shape} {target : Target}
    (htakes : target.Takes shape) (hshape : t.hasShape (t.follow index) shape) {set : Bool}
    {out : Target} (h : Clean (unmarshal floats t fuel index target) (set, out)) :
    t.Reads (t.follow index) shape out := by
  unfold Target.Takes at htakes
  split at htakes
  · simp only [Tree.hasShape, Tree.hasScalarShape, Bool.and_eq_true, decide_eq_true_eq] at hshape
    obtain ⟨-, rfl⟩ := unmarshal_text hshape.2 h
    exact ⟨hshape.1, hshape.2, rfl⟩
  · simp only [Tree.hasShape, Tree.hasScalarShape, Bool.and_eq_true, decide_eq_true_eq,
      Bool.not_eq_true', List.isEmpty_eq_false_iff] at hshape
    obtain ⟨-, rfl⟩ := unmarshal_text hshape.1.2 h
    exact ⟨⟨hshape.1.1, hshape.1.2, rfl⟩, hshape.2⟩
  · simp only [Tree.hasShape, Tree.hasScalarShape, Bool.and_eq_true, decide_eq_true_eq] at hshape
    exact unmarshal_bool hshape.1 hshape.2 h
  · exact unmarshal_list hshape h
  · exact htakes.elim

/-! ## The entries -/

/-- An entry that is decoded without an error names a key that is not done, and its value goes to
that key's setting. -/
theorem entry_inv {fuel : Nat} {key value : Fin n} {name : List Char} {done : List Key}
    {schema : FileSchema} {r : List Key × FileSchema}
    (h : Clean (entry floats t (unmarshal floats t fuel) key value name done schema) r) :
    ∃ (field : Key) (set : Bool) (written : Target), field.name = name ∧ field ∉ done ∧
      Clean (unmarshal floats t fuel value (schema.field field)) (set, written) ∧
      r = (field :: done, schema.set field written) := by
  unfold entry at h
  split at h
  · obtain ⟨_, hpush, -⟩ := Action.Clean.bind_inv h fun _ => .pure _
    exact (not_clean_push hpush).elim
  · case h_2 field hfield =>
    split at h
    · obtain ⟨_, hpush, -⟩ := Action.Clean.bind_inv h fun _ => .pure _
      exact (not_clean_push hpush).elim
    · case isFalse hdone =>
      obtain ⟨_, -, h⟩ := Action.Clean.bind_inv h fun _ => .bind (keeps_unmarshal _ _ _) fun _ =>
        .pure _
      obtain ⟨⟨set, written⟩, hvalue, h⟩ := Action.Clean.bind_inv h fun _ => .pure _
      exact ⟨field, set, written, Key.name_of_find hfield, hdone, hvalue, Action.Clean.pure_inv h⟩

/-- The first entry, when its key is not a null, and those after it. -/
theorem entries_cons {fuel : Nat} {e : Fin n × Fin n} {rest : List (Fin n × Fin n)}
    {done : List Key} {schema last : FileSchema} {name : List Char}
    (hname : t.keyName e.1 = some name)
    (h : Clean (entries floats t (unmarshal floats t fuel) (e :: rest) done schema) last) :
    ∃ r, Clean (entry floats t (unmarshal floats t fuel) e.1 e.2 name done schema) r ∧
      Clean (entries floats t (unmarshal floats t fuel) rest r.1 r.2) last := by
  have hrest (out : Bool × Target) : Keeps Unmarked (if out.1 then do
      let r ← entry floats t (unmarshal floats t fuel) e.1 e.2 out.2.text done schema
      entries floats t (unmarshal floats t fuel) rest r.1 r.2
      else entries floats t (unmarshal floats t fuel) rest done schema) := by
    split
    · exact .bind (keeps_entry (keeps_unmarshal fuel) _ _ _ _ _) fun _ =>
        keeps_entries (keeps_unmarshal fuel) _ _ _
    · exact keeps_entries (keeps_unmarshal fuel) _ _ _
  obtain ⟨_, -, h⟩ := Action.Clean.bind_inv h fun _ => .bind (keeps_unmarshal _ _ _) hrest
  obtain ⟨⟨set, out⟩, hkey, h⟩ := Action.Clean.bind_inv h hrest
  obtain ⟨-, ⟨hnull, -⟩ | ⟨name', hname', rfl, rfl⟩⟩ := unmarshal_string hkey
  · simp [Tree.keyName, Node.name, hnull] at hname
  · rw [hname] at hname'
    cases hname'
    exact Action.Clean.bind_inv h fun _ => keeps_entries (keeps_unmarshal fuel) _ _ _

/-- The entries whose values have the shapes of the keys they name: each sets its key, and nothing
else is set. -/
theorem entries_says {fuel : Nat} {list : List (Fin n × Fin n)} {done : List Key}
    {schema last : FileSchema}
    (hnamed : ∀ e ∈ list, ∃ name, t.keyName e.1 = some name ∧
      ∀ key : Key, key.name = name → t.hasShape (t.follow e.2) key.shape)
    (h : Clean (entries floats t (unmarshal floats t fuel) list done schema) last) :
    (∀ e ∈ list, ∃ key : Key, t.keyName e.1 = some key.name ∧ key ∉ done ∧
        t.Reads (t.follow e.2) key.shape (last.field key)) ∧
      list.Pairwise (fun e e' => t.keyName e.1 ≠ t.keyName e'.1) ∧
      ∀ key : Key, (∀ e ∈ list, t.keyName e.1 ≠ some key.name) →
      last.field key = schema.field key := by
  induction list generalizing done schema with
  | nil =>
    rw [Action.Clean.pure_inv h]
    exact ⟨nofun, .nil, fun _ _ => rfl⟩
  | cons e rest ih =>
    obtain ⟨name, hname, hshape⟩ := hnamed e List.mem_cons_self
    obtain ⟨r, hentry, hrest⟩ := entries_cons hname h
    obtain ⟨key, set, written, rfl, hdone, hvalue, rfl⟩ := entry_inv hentry
    have hreads := unmarshal_reads (schema.field_takes key) (hshape key rfl) hvalue
    obtain ⟨hothers, hpairwise, hunset⟩ :=
      ih (fun e he => hnamed e (List.mem_cons_of_mem _ he)) hrest
    -- No later entry names the same key, since the key is done.
    have hlater : ∀ e' ∈ rest, t.keyName e'.1 ≠ some key.name := by
      intro e' he' hsame
      obtain ⟨other, hother, hnot, -⟩ := hothers e' he'
      rw [hsame] at hother
      rw [Key.name_inj (Option.some.inj hother)] at hnot
      exact hnot List.mem_cons_self
    have hkey : last.field key = written := by
      rw [hunset key hlater, FileSchema.field_set_same hreads.takes]
    refine ⟨?_, .cons (fun e' he' => ?_) hpairwise, fun other hother => ?_⟩
    · intro e' he'
      rcases List.mem_cons.mp he' with rfl | he'
      · exact ⟨key, hname, hdone, by rw [hkey]; exact hreads⟩
      · obtain ⟨other, hother, hnot, hreads'⟩ := hothers e' he'
        exact ⟨other, hother, fun hmem => hnot (List.mem_cons_of_mem _ hmem), hreads'⟩
    · rw [hname]
      exact (hlater e' he').symm
    · have hne : other ≠ key := by
        rintro rfl
        exact hother e List.mem_cons_self hname
      rw [hunset other fun e' he' => hother e' (List.mem_cons_of_mem _ he'),
        FileSchema.field_set_other hne]

/-- The root mapping, decoded into the schema. -/
theorem unmarshal_schema {fuel : Nat} {root : Fin n}
    (hkind : (t.nodes (t.follow root)).kind = .mapping) {schema : FileSchema} {r : Bool × Target}
    (h : Clean (unmarshal floats t fuel root (.schema schema)) r) :
    ∃ fuel' last, r = (true, .schema last) ∧
      Clean (entries floats t (unmarshal floats t fuel') (pairs (t.nodes (t.follow root)).content)
        []
        schema) last := by
  obtain ⟨fuel', h⟩ := unmarshal_follow h
  simp only [prepare, unmarshalValue, hkind, mapping] at h
  split at h
  · obtain ⟨last, hentries, h⟩ := Action.Clean.bind_inv h fun _ => .pure _
    exact ⟨fuel', last, Action.Clean.pure_inv h, hentries⟩
  · case h_2 found hfound =>
    obtain ⟨_, h, -⟩ := Action.Clean.bind_inv h fun _ => .pure _
    exact (not_clean_append hfound h).elim

end Decoder

/-! ## The document -/

namespace Tree

variable {n : Nat} {t : Tree n} {floats : Floats} {schema : FileSchema}

open Decoder (count keeps_count keeps_unmarshal)

theorem decode_ok (h : t.decode floats = .ok schema) :
    Decoder.Clean (t.decodeRoot floats depth) schema := by
  unfold decode at h
  split at h
  · case h_1 found d hrun =>
    split at h
    · case isTrue hempty =>
      cases h
      exact ⟨{}, d, hrun, List.isEmpty_iff.mp hempty⟩
    · cases h
  · cases h

private theorem keeps_root (out : Bool × Target) : Keeps Decoder.Unmarked (match out.2 with
    | .schema schema => pure schema
    | _ => pure {} : Decode n FileSchema) := by
  split <;> exact .pure _

theorem decodeRoot_inv {root : Fin n} (hroot : t.root = some root)
    (hkind : (t.nodes (t.follow root)).kind = .mapping) {fuel : Nat}
    (h : Decoder.Clean (t.decodeRoot floats fuel) schema) :
    ∃ fuel', Decoder.Clean (Decoder.entries floats t (Decoder.unmarshal floats t fuel')
      t.entries [] {})
      schema := by
  unfold decodeRoot at h
  rw [hroot] at h
  obtain ⟨_, -, h⟩ := Action.Clean.bind_inv h fun _ => .bind keeps_count fun _ =>
    .bind (keeps_unmarshal _ _ _) keeps_root
  obtain ⟨_, -, h⟩ := Action.Clean.bind_inv h fun _ => .bind (keeps_unmarshal _ _ _) keeps_root
  obtain ⟨out, hout, h⟩ := Action.Clean.bind_inv h keeps_root
  obtain ⟨fuel', last, rfl, hentries⟩ := Decoder.unmarshal_schema hkind hout
  rw [Action.Clean.pure_inv h]
  exact ⟨fuel', by rw [entries, hroot]; exact hentries⟩

/-- An accepted document whose keys are plain says what the settings are, and only such a document
does. -/
theorem says_iff_plain (h : t.Accepted floats schema) : t.Says schema ↔ t.Plain := by
  constructor
  · intro hsays e he
    obtain ⟨key, hname, hreads⟩ := hsays.known e he
    exact ⟨key.name, hname, .inr ⟨key, _, rfl, hreads⟩⟩
  · intro hplain
    obtain ⟨root, hroot, hkind, hshapes⟩ := checkShapes_ok h.checkShapes
    obtain ⟨fuel, hentries⟩ := decodeRoot_inv hroot hkind (decode_ok h.decode)
    have hnamed : ∀ e ∈ t.entries, ∃ name, t.keyName e.1 = some name ∧
        ∀ key : Key, key.name = name → t.hasShape (t.follow e.2) key.shape := by
      intro e he
      obtain ⟨name, hname, hown | ⟨other, target, hother, hreads⟩⟩ := hplain e he
      · exact ⟨name, hname, fun key hkey => hshapes e he key (hown.trans hkey.symm)⟩
      · refine ⟨name, hname, fun key hkey => ?_⟩
        rw [Key.name_inj (hkey.trans hother.symm)]
        exact hreads.hasShape
    obtain ⟨hknown, hdistinct, habsent⟩ := Decoder.entries_says hnamed hentries
    refine ⟨fun e he => ?_, hdistinct, habsent⟩
    obtain ⟨key, hname, -, hreads⟩ := hknown e he
    exact ⟨key, hname, hreads⟩

/-- A scalar without anything under it. -/
def leaf (tag : Tag) (value : String) (quoted : Bool) : Node n :=
  { kind := .scalar, tag := some tag, value := value.toList, quoted := quoted }

/-- `device-allow: [/dev/kvm, &serial "/dev/ttyS0", *serial]` and `dry-run: true`. -/
def plainDocument : Tree 8 where
  nodes
    | 0 => { kind := .mapping, tag := some .map, content := [1, 2, 6, 7] }
    | 1 => leaf .str "device-allow" false
    | 2 => { kind := .sequence, tag := some .seq, content := [3, 4, 5] }
    | 3 => leaf .str "/dev/kvm" false
    | 4 => leaf .str "/dev/ttyS0" true
    | 5 => { kind := .alias, tag := none, value := "serial".toList, aliased := some 4 }
    | 6 => leaf .str "dry-run" false
    | 7 => leaf .bool "true" false
  root := some 0
  anchored := by decide

/-- No float is in range, and no ratio is too high. -/
def noFloats : Floats := ⟨fun _ => false, fun _ _ => false⟩

def plainSettings : FileSchema :=
  { dryRun := some true
    deviceAllow := some (["/dev/kvm", "/dev/ttyS0", "/dev/ttyS0"].map String.toList) }

private theorem plainDocument_accepted : plainDocument.Accepted noFloats plainSettings :=
  ⟨by decide +kernel, by decide +kernel, by decide +kernel⟩

theorem plainDocument_plain : plainDocument.Plain := by
  have hentries : plainDocument.entries = [(1, 2), (6, 7)] := by decide +kernel
  intro e he
  rw [hentries] at he
  rcases List.mem_cons.mp he with rfl | he
  · exact ⟨"device-allow".toList, by decide +kernel, .inl rfl⟩
  · obtain rfl := List.mem_singleton.mp he
    exact ⟨"dry-run".toList, by decide +kernel, .inl rfl⟩

theorem plainDocument_says :
    plainDocument.Accepted noFloats plainSettings ∧ plainDocument.Says plainSettings :=
  ⟨plainDocument_accepted, (says_iff_plain plainDocument_accepted).mpr plainDocument_plain⟩

/-- `metrics-addr: &k dry-run` and `*k : "yes"`. -/
def aliasedKey : Tree 5 where
  nodes
    | 0 => { kind := .mapping, tag := some .map, content := [1, 2, 3, 4] }
    | 1 => leaf .str "metrics-addr" false
    | 2 => leaf .str "dry-run" false
    | 3 => { kind := .alias, tag := none, value := "k".toList, aliased := some 2 }
    | 4 => leaf .str "yes" true
  root := some 0
  anchored := by decide

def aliasedSettings : FileSchema := { metricsAddr := "dry-run".toList, dryRun := some true }

/-- A quoted `"yes"` under an alias of a key is read as a boolean. -/
theorem quoted_yes_accepted :
    aliasedKey.Accepted noFloats aliasedSettings ∧ ¬ aliasedKey.Says aliasedSettings := by
  refine ⟨⟨by decide +kernel, by decide +kernel, by decide +kernel⟩, fun h => ?_⟩
  obtain ⟨key, hname, hreads⟩ := h.known (3, 4) (by decide +kernel)
  have hkey : key = .dryRun := by
    cases key
    case dryRun => rfl
    all_goals exact absurd hname (by decide +kernel)
  subst hkey
  exact absurd hreads.2.1 (by decide +kernel)

end Tree
end Config
end Sda
