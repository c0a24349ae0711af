import DeviceAccess.Config.Yaml
import DeviceAccess.Lib.Lists

/-!
# What an accepted config file says

`Tree.Says` is what it means for the settings to be what the document says: every entry of the root
mapping names a key of the schema, no two name the same one, every value has its key's shape and is
what the setting holds, and the other settings are unset.

The two passes together do not give that for every document they accept. They do exactly for those
that are `Tree.Plain`: no entry's key is a null, and where a key node's own text is not the name it
stands for (an alias, or binary data), its value has the shape of the key it stands for.
-/

namespace Sda
namespace Config

/-! ## What a document says -/

/-- The key node, its alias followed, is a null. -/
def Node.isNull {n : Nat} (node : Node n) : Bool :=
  node.tag = some .null || (node.tag = none && !node.quoted && node.value ∈ nullSpellings)

/-- The name a scalar stands for as a key, its tag resolved. -/
def Node.name {n : Nat} (node : Node n) : Option (List Char) :=
  if node.kind ≠ .scalar ∨ node.isNull then none
  else if node.tag = some .binary then (decodeBase64 node.value).map Text.fromUtf8Lossy
  else some node.value

namespace Tree

variable {n : Nat} (t : Tree n)

/-- The node an alias stands for; any other node stands for itself. -/
def follow (index : Fin n) : Fin n :=
  if (t.nodes index).kind = .alias then (t.nodes index).aliased.getD index else index

/-- The entries of the root mapping. -/
def entries : List (Fin n × Fin n) :=
  match t.root with
  | none => []
  | some root => pairs (t.nodes (t.follow root)).content

/-- The name of an entry's key, after its alias and its tag. -/
def keyName (key : Fin n) : Option (List Char) := (t.nodes (t.follow key)).name

/-- The node is the string `text`. -/
def IsText (index : Fin n) (text : List Char) : Prop :=
  (t.nodes index).kind = .scalar ∧ (t.nodes index).tag = some .str ∧ (t.nodes index).value = text

/-- The node has a shape, and this is the setting it makes. -/
def Reads (index : Fin n) : Shape → Target → Prop
  | .bool, .optionalBool (some flag) =>
    (t.nodes index).kind = .scalar ∧ (t.nodes index).tag = some .bool ∧
      (t.nodes index).value ∈ if flag then trueSpellings else falseSpellings
  | .nonEmptyString, .string text => t.IsText index text ∧ text ≠ []
  | .string, .string text => t.IsText index text
  | .nonEmptyStringList, .list (some texts) =>
    (t.nodes index).kind = .sequence ∧
      List.Forall₂ (fun item text => t.IsText (t.follow item) text ∧ text ≠ [])
        (t.nodes index).content texts
  | _, _ => False

/-- The settings are what the document says. -/
structure Says (schema : FileSchema) : Prop where
  /-- Every entry is a key of the schema with a value of its shape, and that value is the setting.
  -/
  known : ∀ e ∈ t.entries, ∃ key : Key,
    t.keyName e.1 = some key.name ∧ t.Reads (t.follow e.2) key.shape (schema.field key)
  /-- No two entries name the same key. -/
  distinct : t.entries.Pairwise fun e e' => t.keyName e.1 ≠ t.keyName e'.1
  /-- The settings of absent keys are unset. -/
  absent : ∀ key : Key, (∀ e ∈ t.entries, t.keyName e.1 ≠ some key.name) →
    schema.field key = FileSchema.field {} key

/-- No entry's key is a null, and a key that is not spelled as the name it stands for has a value of
that name's shape. -/
def Plain : Prop :=
  ∀ e ∈ t.entries, ∃ name, t.keyName e.1 = some name ∧
    ((t.nodes e.1).value = name ∨
      ∃ (key : Key) (target : Target), key.name = name ∧ t.Reads (t.follow e.2) key.shape target)

/-- Both passes succeed on a document that is not empty. -/
structure Accepted (floats : Floats) (schema : FileSchema) : Prop where
  isEmptyDocument : t.isEmptyDocument = false
  checkShapes : t.checkShapes = .ok ()
  decode : t.decode floats = .ok schema

end Tree

/-! ## Keys and settings -/

theorem Key.find_name (key : Key) : Key.find key.name = some key := by
  cases key <;> decide +kernel

theorem Key.name_of_find {name : List Char} {key : Key} (h : Key.find name = some key) :
    key.name = name := by
  simpa using List.find?_some h

theorem Key.name_inj {key other : Key} (h : key.name = other.name) : key = other := by
  have hfind := Key.find_name key
  rw [h, Key.find_name] at hfind
  exact (Option.some.inj hfind).symm

/-- A target of the kind a shape is read into. -/
def Target.Takes : Target → Shape → Prop
  | .string _, .string | .string _, .nonEmptyString => True
  | .optionalBool _, .bool => True
  | .list _, .nonEmptyStringList => True
  | _, _ => False

theorem FileSchema.field_takes (schema : FileSchema) (key : Key) :
    (schema.field key).Takes key.shape := by
  cases key <;> exact trivial

theorem FileSchema.field_set_same {schema : FileSchema} {key : Key} {target : Target}
    (h : target.Takes key.shape) : (schema.set key target).field key = target := by
  cases key <;> cases target <;> first | rfl | exact h.elim

theorem FileSchema.field_set_other {schema : FileSchema} {key other : Key} {target : Target}
    (h : other ≠ key) : (schema.set key target).field other = schema.field other := by
  cases key <;> cases target <;> first | rfl | (cases other <;> first | rfl | exact absurd rfl h)

theorem Tree.Reads.takes {n : Nat} {t : Tree n} {index : Fin n} {shape : Shape} {target : Target}
    (h : t.Reads index shape target) : target.Takes shape := by
  unfold Tree.Reads at h
  split at h <;> first | exact trivial | exact h.elim

/-! ## Following aliases -/

namespace Tree

variable {n : Nat} {t : Tree n}

theorem follow_alias {index target : Fin n} (hkind : (t.nodes index).kind = .alias)
    (htarget : (t.nodes index).aliased = some target) : t.follow index = target := by
  rw [follow, if_pos hkind, htarget]
  rfl

theorem follow_of_ne {index : Fin n} (hkind : (t.nodes index).kind ≠ .alias) :
    t.follow index = index := if_neg hkind

theorem follow_kind (t : Tree n) (index : Fin n) : (t.nodes (t.follow index)).kind ≠ .alias := by
  by_cases hkind : (t.nodes index).kind = .alias
  · obtain ⟨target, htarget, hne⟩ := t.anchored index hkind
    rw [follow_alias hkind htarget]
    exact hne
  · rw [follow_of_ne hkind]
    exact hkind

/-- The chain of aliases is one step long. -/
theorem deref_eq (t : Tree n) (index : Fin n) : t.deref index = .ok (t.follow index) := by
  obtain ⟨m, rfl⟩ : ∃ m, n = m + 1 := Nat.exists_eq_succ_of_ne_zero (Nat.ne_of_gt (Fin.pos index))
  by_cases hkind : (t.nodes index).kind = .alias
  · obtain ⟨target, htarget, hne⟩ := t.anchored index hkind
    rw [follow_alias hkind htarget, deref, derefFrom, if_pos hkind,
      if_neg (List.not_mem_nil), htarget]
    exact if_neg hne
  · rw [follow_of_ne hkind, deref, derefFrom, if_neg hkind]

/-! ## The shape pass -/

theorem hasShape_list {index : Fin n} (h : t.hasShape index .nonEmptyStringList) :
    (t.nodes index).kind = .sequence ∧
      ∀ item ∈ (t.nodes index).content, t.hasScalarShape (t.follow item) .nonEmptyString := by
  simpa [hasShape, deref_eq] using h

theorem Reads.hasShape {index : Fin n} {shape : Shape} {target : Target}
    (h : t.Reads index shape target) : t.hasShape index shape := by
  unfold Reads at h
  split at h
  · simp [Tree.hasShape, hasScalarShape, h]
  · obtain ⟨⟨hkind, htag, rfl⟩, hne⟩ := h
    simp [Tree.hasShape, hasScalarShape, hkind, htag, hne]
  · obtain ⟨hkind, htag, -⟩ := h
    simp [Tree.hasShape, hasScalarShape, hkind, htag]
  · obtain ⟨hkind, hitems⟩ := h
    simp only [Tree.hasShape, hkind, deref_eq, decide_true, Bool.true_and, List.all_eq_true]
    intro item hitem
    obtain ⟨text, -, ⟨hkind, htag, rfl⟩, hne⟩ := forall₂_exists_right hitems hitem
    simp [hasScalarShape, hkind, htag, hne]
  · exact h.elim

theorem checkEntry_ok {key value : Fin n} (h : t.checkEntry key value = .ok ()) {known : Key}
    (hknown : (t.nodes key).value = known.name) : t.hasShape (t.follow value) known.shape := by
  unfold checkEntry at h
  split at h
  · cases h
  rw [hknown, Key.find_name, deref_eq] at h
  by_contra hshape
  simp [hshape] at h

theorem checkEntries_ok {entries : List (Fin n × Fin n)} (h : t.checkEntries entries = .ok ())
    {e : Fin n × Fin n} (he : e ∈ entries) : t.checkEntry e.1 e.2 = .ok () := by
  induction entries with
  | nil => cases he
  | cons first rest ih =>
    rw [checkEntries] at h
    cases hfirst : t.checkEntry first.1 first.2 with
    | error error =>
      rw [hfirst] at h
      cases h
    | ok done =>
      rw [hfirst] at h
      rcases List.mem_cons.mp he with rfl | he
      · exact hfirst
      · exact ih h he

/-- What the shape pass checked: keys by their own text. -/
theorem checkShapes_ok (h : t.checkShapes = .ok ()) :
    ∃ root, t.root = some root ∧ (t.nodes (t.follow root)).kind = .mapping ∧
      ∀ e ∈ t.entries, ∀ key : Key, (t.nodes e.1).value = key.name →
        t.hasShape (t.follow e.2) key.shape := by
  unfold checkShapes at h
  split at h
  · cases h
  · case h_2 root hroot =>
    rw [deref_eq] at h
    by_cases hkind : (t.nodes (t.follow root)).kind = .mapping
    · refine ⟨root, hroot, hkind, fun e he key hkey => ?_⟩
      have hentries : t.checkEntries (pairs (t.nodes (t.follow root)).content) = .ok () := by
        simpa [hkind] using h
      rw [entries, hroot] at he
      exact checkEntry_ok (checkEntries_ok hentries he) hkey
    · simp [hkind] at h

end Tree
end Config
end Sda
