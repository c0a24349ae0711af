import DeviceAccess.V1.Exact

/-!
# What is effective while a pass runs

A pass revokes before it grants, and one failing revocation ends it. So between two file calls the
list is either one the pass is still taking from, or one that nothing unwanted of the old grant is
left in (`never_mixes`).

* `Logs`: what all file calls of a part of a pass have in common.
* `revokeOwned_logs`, `grantNew_logs`: the lists the two loops go through are those of changes.
* `Split.Matches`: a ledger that matches the list; then the split is exact over the baseline.
-/

namespace Sda
namespace V1

open Sda.Filter
open V2 (Identity)

/-! ## File calls -/

/-- A write to `devices.allow`, whether it succeeded or not. -/
def Event.allows : Event → Bool
  | .write true _ _ => true
  | _ => false

/-- A write to `devices.deny` that failed. -/
def Event.failedDeny : Event → Bool
  | .write false _ false => true
  | _ => false

/-- Everything that was called between `w` and `w'` satisfies `P`. -/
def Logs (w w' : World) (P : Moment → Prop) : Prop :=
  ∃ moments, w'.log = w.log ++ moments ∧ ∀ m ∈ moments, P m

namespace Logs

variable {w w₁ w₂ : World} {P Q : Moment → Prop}

theorem of_eq (h : w₁.log = w.log) : Logs w w₁ P := ⟨[], by rw [h, List.append_nil], nofun⟩

theorem trans (h : Logs w w₁ P) (h' : Logs w₁ w₂ P) : Logs w w₂ P := by
  obtain ⟨first, hfirst, hp⟩ := h
  obtain ⟨second, hsecond, hp'⟩ := h'
  refine ⟨first ++ second, by rw [hsecond, hfirst, List.append_assoc], fun m hm => ?_⟩
  exact (List.mem_append.mp hm).elim (hp m) (hp' m)

theorem mono (h : Logs w w₁ P) (hpq : ∀ m, P m → Q m) : Logs w w₁ Q := by
  obtain ⟨moments, hlog, hp⟩ := h
  exact ⟨moments, hlog, fun m hm => hpq m (hp m hm)⟩

end Logs

section Calls

variable {env : Env} {id : Identity} {w w' : World}

theorem readList_logs {r : Except Error (List ListEntry)} (h : readList env w = (r, w')) :
    Logs w w' fun m => (m.event.allows = false ∧ m.event.failedDeny = false) ∧ m.list = w.list := by
  rw [readList] at h
  split at h
  all_goals
    cases h
    exact ⟨[_], rfl, List.forall_mem_singleton.mpr ⟨⟨rfl, rfl⟩, rfl⟩⟩

theorem writeBit_logs {allow : Bool} {bit : DevBit} {r : Except FileError Unit}
    (h : writeBit env allow bit w = (r, w')) :
    Logs w w' fun m => m = ⟨.write allow bit r.isOk, w'.list⟩ := by
  rw [writeBit] at h
  split at h
  all_goals
    cases h
    exact ⟨[_], rfl, fun m hm => List.mem_singleton.mp hm⟩

/-! ## The loops -/

variable (start : Split) (desired : Finset DevBit)

/-- `list` is what changes from `s` lead to, with no bit owned outside of `bound`. -/
def Through (s : Split) (bound : Finset DevBit) (list : DevicesList) : Prop :=
  ∃ s', Changes start desired s s' ∧ s'.owned ⊆ bound ∧ list = s'.list

variable {start desired} {bound : Finset DevBit}

theorem Through.refl {s : Split} (h : s.owned ⊆ bound) : Through start desired s bound s.list :=
  ⟨s, .refl, h, rfl⟩

theorem Through.head {s s' : Split} {list : DevicesList} (hchange : Change start desired s s')
    (h : Through start desired s' bound list) : Through start desired s bound list := by
  obtain ⟨s'', hchanges, hbound, hlist⟩ := h
  exact ⟨s'', .head hchange hchanges, hbound, hlist⟩

theorem Through.after {s s' : Split} {list : DevicesList} (hchanges : Changes start desired s s')
    (h : Through start desired s' bound list) : Through start desired s bound list := by
  obtain ⟨s'', hchanges', hbound, hlist⟩ := h
  exact ⟨s'', hchanges.trans hchanges', hbound, hlist⟩

private theorem split_remove {ledger : Ledger} {bit : DevBit}
    (h : w'.ledger = ledger.remove id bit) :
    w'.split id = ⟨w'.list, (ledger.owned id).erase bit⟩ := by
  rw [World.split, h, Ledger.owned_remove]

private theorem split_add {ledger : Ledger} {bit : DevBit} (h : w'.ledger = ledger.add id bit) :
    w'.split id = ⟨w'.list, insert bit (ledger.owned id)⟩ := by
  rw [World.split, h, Ledger.owned_add]

/-- The revocations write to `devices.deny` alone, and all their writes succeed unless they stop. -/
theorem revokeOwned_logs {bits : List DevBit} {forgotten : Finset DevBit}
    {r : Except Error (Finset DevBit)} (hold : ∀ bit ∈ bits, bit ∈ start.owned)
    (hbound : w.ledger.owned id ⊆ bound)
    (h : revokeOwned env id start.baseline (start.ownedNew desired) bits forgotten w = (r, w')) :
    Logs w w' (fun m => (m.event.allows = false ∧ (r.isOk = true → m.event.failedDeny = false)) ∧
      Through start desired (w.split id) bound m.list) ∧ w'.ledger.owned id ⊆ bound := by
  induction bits generalizing w forgotten with
  | nil =>
    cases h
    exact ⟨.of_eq rfl, hbound⟩
  | cons bit bits ih =>
    have hbit := hold bit List.mem_cons_self
    have hold := fun b hb => hold b (List.mem_cons_of_mem _ hb)
    have herase : (w.ledger.owned id).erase bit ⊆ bound := (Finset.erase_subset _ _).trans hbound
    rw [revokeOwned] at h
    split at h
    next hnew => exact ih hold hbound h
    next hnew =>
      split at h
      next hcovered =>
        rw [editLedger_bind] at h
        obtain ⟨hlogs, howned⟩ := ih hold (by rw [Ledger.owned_remove]; exact herase) h
        rw [split_remove rfl] at hlogs
        exact ⟨hlogs.mono fun m hm => ⟨hm.1, hm.2.head (.forget hbit hcovered)⟩, howned⟩
      next hcovered =>
        obtain ⟨e, hwrite, rfl⟩ | ⟨⟨⟩, w₁, hwrite, h⟩ := Action.bind_inv h
        · obtain ⟨cause, hwrite, -⟩ := Action.mapErr_error_inv hwrite
          obtain ⟨hledger, ⟨-, hlist⟩ | ⟨hr, -⟩⟩ := writeBit_inv hwrite
          · refine ⟨(writeBit_logs hwrite).mono ?_, by rw [hledger]; exact hbound⟩
            rintro m rfl
            exact ⟨⟨rfl, fun hok => absurd hok Bool.false_ne_true⟩, hlist ▸ .refl hbound⟩
          · cases hr
        · have hwrite := Action.mapErr_ok_inv hwrite
          obtain ⟨hledger, ⟨⟨e, hr⟩, -⟩ | ⟨-, hlist⟩⟩ := writeBit_inv hwrite
          · cases hr
          rw [editLedger_bind] at h
          have hchange : Change start desired (w.split id)
              ⟨w₁.list, (w.ledger.owned id).erase bit⟩ := by
            rw [hlist]
            exact .revoke hbit hnew (Bool.eq_false_iff.mpr hcovered)
          obtain ⟨hlogs, howned⟩ := ih hold (by rw [Ledger.owned_remove, hledger]; exact herase) h
          rw [split_remove rfl, hledger] at hlogs
          refine ⟨((writeBit_logs hwrite).mono ?_).trans
            (Logs.mono (w := w₁) hlogs fun m hm => ⟨hm.1, hm.2.head hchange⟩), howned⟩
          rintro m rfl
          exact ⟨⟨rfl, fun _ => rfl⟩, .head hchange (.refl herase)⟩

/-- The grants write to `devices.allow` alone. -/
theorem grantNew_logs {bits : List DevBit} {errors : List Error} {r : Except Error (List Error)}
    (hnew : ∀ bit ∈ bits, bit ∈ start.ownedNew desired) (hin : ∀ bit ∈ bits, bit ∈ bound)
    (hbound : w.ledger.owned id ⊆ bound)
    (h : grantNew env id start.list.entries bits errors w = (r, w')) :
    Logs w w' (fun m => m.event.failedDeny = false ∧
      Through start desired (w.split id) bound m.list) ∧ w'.ledger.owned id ⊆ bound := by
  induction bits generalizing w errors with
  | nil =>
    cases h
    exact ⟨.of_eq rfl, hbound⟩
  | cons bit bits ih =>
    have hbit := hnew bit List.mem_cons_self
    have hinsert : insert bit (w.ledger.owned id) ⊆ bound :=
      Finset.insert_subset (hin bit List.mem_cons_self) hbound
    have hnew := fun b hb => hnew b (List.mem_cons_of_mem _ hb)
    have hin := fun b hb => hin b (List.mem_cons_of_mem _ hb)
    have hnext : ∀ {w₁ : World},
        Change start desired (w.split id) ⟨w₁.list, insert bit (w.ledger.owned id)⟩ →
        w₁.ledger = w.ledger → (editLedger (·.add id bit) >>= fun _ =>
          grantNew env id start.list.entries bits errors) w₁ = (r, w') →
        Logs w₁ w' (fun m => m.event.failedDeny = false ∧
          Through start desired (w.split id) bound m.list) ∧ w'.ledger.owned id ⊆ bound := by
      intro w₁ hchange hledger h
      rw [editLedger_bind] at h
      obtain ⟨hlogs, howned⟩ := ih hnew hin (by rw [Ledger.owned_add, hledger]; exact hinsert) h
      rw [split_add rfl, hledger] at hlogs
      exact ⟨Logs.mono (w := w₁) hlogs fun m hm => ⟨hm.1, hm.2.head hchange⟩, howned⟩
    rw [grantNew] at h
    by_cases heffective : covered start.list.entries bit = true
    · rw [if_pos heffective] at h
      exact hnext (.keep hbit heffective) rfl h
    · rw [if_neg heffective] at h
      obtain ⟨written, w₁, hwritten⟩ := (writeBit env true bit).exists_run w
      have hone := writeBit_logs hwritten
      obtain ⟨hledger, ⟨⟨e, rfl⟩, hlist⟩ | ⟨rfl, hlist⟩⟩ := writeBit_inv hwritten
      · rw [Action.bind_of_ok (Action.attempt_eq (Action.mapErr_of_error hwritten))] at h
        obtain ⟨hlogs, howned⟩ := ih hnew hin (by rw [hledger]; exact hbound) h
        rw [World.split, hledger, hlist] at hlogs
        refine ⟨(hone.mono ?_).trans hlogs, howned⟩
        rintro m rfl
        exact ⟨rfl, hlist ▸ .refl hbound⟩
      · rw [Action.bind_of_ok (Action.attempt_eq (Action.mapErr_of_ok hwritten))] at h
        have hchange : Change start desired (w.split id)
            ⟨w₁.list, insert bit (w.ledger.owned id)⟩ := by
          rw [hlist]
          exact .grant hbit heffective
        obtain ⟨hlogs, howned⟩ := hnext hchange hledger h
        refine ⟨(hone.mono ?_).trans hlogs, howned⟩
        rintro m rfl
        exact ⟨rfl, .head hchange (.refl hinsert)⟩

theorem verify_logs {ownedOld ownedNew forgotten : Finset DevBit} {r : Except Error Unit}
    (h : verify env ownedOld ownedNew forgotten w = (r, w')) :
    Logs w w' fun m => m.event.failedDeny = false ∧ m.list = w.list := by
  have hread : ∀ {r : Except Error (List ListEntry)} {w' : World},
      Action.mapErr .verify (readList env) w = (r, w') →
      Logs w w' fun m => m.event.failedDeny = false ∧ m.list = w.list := by
    intro r w' h
    obtain ⟨e, h, -⟩ | ⟨a, h, -⟩ := Action.mapErr_inv h
    all_goals exact (readList_logs h).mono fun m hm => ⟨hm.1.2, hm.2⟩
  obtain ⟨e, h, -⟩ | ⟨after, w₁, h, hchecked⟩ := Action.bind_inv h
  · exact hread h
  · have hsame : w' = w₁ := by
      dsimp only at hchecked
      split at hchecked
      all_goals cases hchecked; rfl
    rw [hsame]
    exact hread h

end Calls

/-! ## A ledger that matches the list -/

/-- The owned bits are the effective bits that the rest of the list does not cover. -/
def Split.Matches (s : Split) : Prop :=
  ∀ bit, bit ∈ s.owned ↔ s.list.Effective bit ∧ covered s.baseline bit = false

/-- The list without the owned bits; unlike in the baseline, entries without access stay. -/
def Split.rest (s : Split) : DevicesList where
  entries := s.list.entries.map fun entry =>
    if entry.exact then { entry with access := clearOwned entry (inOrder s.owned) } else entry
  distinct := by
    refine List.Pairwise.map _ (fun first second h => ?_) s.list.distinct
    have hkey : ∀ entry : ListEntry, (if entry.exact then
        { entry with access := clearOwned entry (inOrder s.owned) } else entry).key =
          entry.key := by
      intro entry
      split <;> rfl
    rwa [hkey, hkey]

theorem Split.holds_rest {s : Split} {bit : DevBit} :
    Holds s.rest.entries bit ↔ Holds s.list.entries bit ∧ bit ∉ s.owned := by
  rw [← holds_withoutOwned]
  constructor
  · rintro ⟨entry, he, hk, ha⟩
    refine ⟨entry, List.mem_filter.mpr ⟨he, bne_iff_ne.mpr fun hz => ?_⟩, hk, ha⟩
    rw [hz] at ha
    exact ha BitVec.zero_and
  · rintro ⟨entry, he, hk, ha⟩
    exact ⟨entry, (List.mem_filter.mp he).1, hk, ha⟩

theorem Split.wildcards_rest {s : Split} :
    wildcards s.rest.entries = wildcards s.list.entries := by
  change wildcards (s.list.entries.map _) = _
  induction s.list.entries with
  | nil => rfl
  | cons entry entries ih =>
    rw [List.map_cons, wildcards_cons, wildcards_cons, ih]
    by_cases hexact : entry.exact = true
    · have hkept : ({ entry with access := clearOwned entry (inOrder s.owned) } : ListEntry).exact =
          true :=
        hexact
      rw [if_pos hexact, if_pos hkept, if_pos hexact]
    · rw [if_neg hexact, if_neg hexact]

/-- A split whose ledger matches is exact over what is not owned. -/
theorem Split.Matches.exact {s : Split} (h : s.Matches) : s.Exact s.rest where
  wildcards := Split.wildcards_rest.symm
  holds bit := by
    rw [Split.holds_rest]
    constructor
    · intro hb
      by_cases ho : bit ∈ s.owned
      · exact .inr ho
      · exact .inl ⟨hb, ho⟩
    · rintro (hb | ho)
      · exact hb.1
      · obtain ⟨heffective, hno⟩ := (h bit).mp ho
        refine (DevicesList.effective_iff.mp heffective).resolve_right fun hw => ?_
        rw [Split.baseline, covered_withoutOwned.mpr (.inr hw)] at hno
        cases hno
  apart bit ho := by
    obtain ⟨-, hno⟩ := (h bit).mp ho
    rw [DevicesList.effective_iff, Split.holds_rest, Split.wildcards_rest, ← covered_withoutOwned]
    exact Bool.eq_false_iff.mp hno

/-! ## Old and new grants -/

/-- `list` does not mix the grant before a pass with the one the pass makes: it takes from the one,
or has nothing but the baseline and what is asked for. What is asked for and was effective is. -/
structure Unmixed (start : Split) (rules : List DeviceRule) (list : DevicesList) : Prop where
  apart : (∀ bit, list.Effective bit → start.list.Effective bit) ∨
    ∀ bit, list.Effective bit → covered start.baseline bit = true ∨ Asks rules bit
  kept : ∀ bit, Asks rules bit → start.list.Effective bit → list.Effective bit

theorem Unmixed.refl (start : Split) (rules : List DeviceRule) :
    Unmixed start rules start.list where
  apart := .inl fun _ h => h
  kept _ _ h := h

section Unmixed

variable {start : Split} {rules : List DeviceRule} {desired bound : Finset DevBit}
  {list : DevicesList}

/-- What changes lead to with nothing owned but old bits, or nothing but new ones, is not mixed. -/
theorem Through.unmixed (hmatch : start.Matches) (hdesired : expandRules rules = .ok desired)
    (hbound : bound ⊆ start.owned ∨ bound ⊆ desired)
    (h : Through start desired start bound list) : Unmixed start rules list := by
  obtain ⟨s, hchanges, howned, rfl⟩ := h
  have hstart := hmatch.exact
  obtain ⟨hexact, hkept⟩ := hstart.changes_kept hchanges
  constructor
  · rcases hbound with hbound | hbound
    · refine .inl fun bit hb => hstart.effective.mpr
        ((hexact.effective.mp hb).imp_right fun ho => ?_)
      exact hbound (howned ho)
    · refine .inr fun bit hb => (hexact.effective.mp hb).imp hstart.baseline.mpr fun ho => ?_
      exact (expandRules_ok hdesired bit).mp (hbound (howned ho))
  · intro bit hasks hb
    rcases hstart.effective.mp hb with hrest | ho
    · exact hexact.effective.mpr (.inl hrest)
    · have hnew : bit ∈ start.ownedNew desired :=
        Split.mem_ownedNew.mpr ⟨(expandRules_ok hdesired bit).mpr hasks, ((hmatch bit).mp ho).2⟩
      exact hexact.effective.mpr (.inr (hkept bit ho hnew))

variable {env : Env} {id : Identity} {w w' w₁ w₂ w₃ : World}

/-- While it revokes, a pass takes from the old grant. -/
theorem revoking_unmixed {r : Except Error (Finset DevBit)} (hmatch : (w.split id).Matches)
    (expand : expandRules rules = .ok desired) (hsame : w₁.split id = w.split id)
    (revoke : revokeOwned env id (w.split id).baseline ((w.split id).ownedNew desired)
      (inOrder (w.ledger.owned id)) ∅ w₁ = (r, w₂)) :
    Logs w₁ w₂ (fun m => (m.event.allows = false ∧ (r.isOk = true → m.event.failedDeny = false)) ∧
      Unmixed (w.split id) rules m.list) ∧ Unmixed (w.split id) rules w₂.list := by
  have hold : ∀ bit ∈ inOrder (w.ledger.owned id), bit ∈ (w.split id).owned :=
    fun bit hb => mem_inOrder.mp hb
  have howned : w₁.ledger.owned id ⊆ (w.split id).owned := by
    rw [show w₁.ledger.owned id = (w.split id).owned from congrArg Split.owned hsame]
  have hthrough : ∀ {list : DevicesList}, Through (w.split id) desired (w.split id)
    (w.split id).owned list →
      Unmixed (w.split id) rules list := fun h => h.unmixed hmatch expand (.inl subset_rfl)
  obtain ⟨hlogs, hend⟩ := revokeOwned_logs hold howned revoke
  obtain ⟨hchanges, -⟩ := revokeOwned_inv (w.split id) desired hold revoke
  rw [hsame] at hlogs hchanges
  exact ⟨hlogs.mono fun m hm => ⟨hm.1, hthrough hm.2⟩, hthrough ⟨_, hchanges, hend, rfl⟩⟩

/-- When it grants, nothing is owned any more that is not asked for. -/
theorem granting_unmixed {forgotten : Finset DevBit} {errors : List Error}
    (hmatch : (w.split id).Matches) (expand : expandRules rules = .ok desired)
    (hsame : w₁.split id = w.split id)
    (revoke : revokeOwned env id (w.split id).baseline ((w.split id).ownedNew desired)
      (inOrder (w.ledger.owned id)) ∅ w₁ = (.ok forgotten, w₂))
    (grant : grantNew env id w.list.entries (inOrder ((w.split id).ownedNew desired)) [] w₂ =
      (.ok errors, w₃)) :
    Logs w₂ w₃ (fun m => m.event.failedDeny = false ∧ Unmixed (w.split id) rules m.list) ∧
      Unmixed (w.split id) rules w₃.list := by
  have hnew : ∀ bit ∈ inOrder ((w.split id).ownedNew desired), bit ∈
      (w.split id).ownedNew desired :=
    fun bit hb => mem_inOrder.mp hb
  obtain ⟨hrevoked, hleft⟩ := revokeOwned_inv (w.split id) desired
    (fun bit hb => mem_inOrder.mp hb) revoke
  rw [hsame] at hrevoked
  have howned : w₂.ledger.owned id ⊆ (w.split id).ownedNew desired := by
    intro bit hb
    obtain ⟨hold, hin⟩ := (hleft rfl bit).mp hb
    rw [show w₁.ledger.owned id = w.ledger.owned id from congrArg Split.owned hsame] at hold
    exact hin (mem_inOrder.mpr hold)
  have hthrough : ∀ {list : DevicesList},
      Through (w.split id) desired (w₂.split id) ((w.split id).ownedNew desired) list →
      Unmixed (w.split id) rules list :=
    fun h => (h.after hrevoked).unmixed hmatch expand (.inr (Finset.filter_subset _ _))
  obtain ⟨hlogs, hend⟩ := grantNew_logs hnew hnew howned grant
  obtain ⟨hgranted, -⟩ := grantNew_inv (w.split id) desired hnew grant
  exact ⟨hlogs.mono fun m hm => ⟨hm.1, hthrough hm.2⟩, hthrough ⟨_, hgranted, hend, rfl⟩⟩

/-- A pass allows nothing, or no deny of it fails. -/
theorem setDeviceRules_logs {r : Except Error Unit} (hmatch : (w.split id).Matches)
    (hrun : setDeviceRules env id rules w = (r, w')) :
    (Logs w w' (fun m => m.event.allows = false ∧ Unmixed (w.split id) rules m.list) ∨
      Logs w w' (fun m => m.event.failedDeny = false ∧ Unmixed (w.split id) rules m.list)) ∧
      Unmixed (w.split id) rules w'.list := by
  have hread : ∀ {r : Except Error (List ListEntry)} {w₁ : World}, readList env w = (r, w₁) →
      Logs w w₁ fun m => (m.event.allows = false ∧ m.event.failedDeny = false) ∧
        Unmixed (w.split id) rules m.list := by
    intro r w₁ read
    exact (readList_logs read).mono fun m hm => ⟨hm.1, hm.2 ▸ .refl (w.split id) rules⟩
  cases setDeviceRules_phases hrun with
  | refused => exact ⟨.inl (.of_eq rfl), .refl (w.split id) rules⟩
  | unread _ read =>
    have hlist : w'.list = (w.split id).list := congrArg Split.list (readList_split read)
    exact ⟨.inl ((hread read).mono fun m hm => ⟨hm.1.1, hm.2⟩), hlist ▸ .refl (w.split id) rules⟩
  | stopped expand read revoke =>
    obtain ⟨hlogs, hend⟩ := revoking_unmixed hmatch expand (readList_split read) revoke
    refine ⟨.inl (((hread read).mono fun m hm => ⟨hm.1.1, hm.2⟩).trans ?_), hend⟩
    exact hlogs.mono fun m hm => ⟨hm.1.1, hm.2⟩
  | finished expand read revoke grant verify errorless =>
    obtain ⟨hrevoking, -⟩ := revoking_unmixed hmatch expand (readList_split read) revoke
    obtain ⟨hgranting, hend⟩ := granting_unmixed hmatch expand (readList_split read) revoke grant
    have hsplit : w'.split id = _ := verify_inv verify
    have hlist : w'.list = _ := congrArg Split.list hsplit
    refine ⟨.inr ?_, hlist ▸ hend⟩
    refine ((hread read).mono fun m hm => ⟨hm.1.2, hm.2⟩).trans ?_
    refine (hrevoking.mono fun m hm => ⟨hm.1.2 rfl, hm.2⟩).trans (hgranting.trans ?_)
    exact (verify_logs verify).mono fun m hm => ⟨hm.1, hm.2 ▸ hend⟩

end Unmixed

/-- **A pass never mixes an old grant with a new one**, whatever fails. For a ledger that matches
the list, every list between two file calls of a pass takes from the list before it or has nothing
but the baseline and what is asked for, and what is asked for and was effective stays effective. In
a pass with a failing deny nothing is allowed. -/
theorem never_mixes (env : Env) (id : Identity) (w w' : World) (rules : List DeviceRule)
    (r : Except Error Unit) (hmatch : (w.split id).Matches)
    (hrun : setDeviceRules env id rules w = (r, w')) :
    ∃ moments, w'.log = w.log ++ moments ∧
      (∀ list ∈ w'.list :: moments.map Moment.list, Unmixed (w.split id) rules list) ∧
      ((∃ m ∈ moments, m.event.failedDeny = true) → ∀ m ∈ moments, m.event.allows = false) := by
  have hlists : ∀ {moments : List Moment}, (∀ m ∈ moments, Unmixed (w.split id) rules m.list) →
      ∀ list ∈ moments.map Moment.list, Unmixed (w.split id) rules list :=
    fun h => List.forall_mem_map.mpr h
  obtain ⟨⟨moments, hlog, hall⟩ | ⟨moments, hlog, hall⟩, hend⟩ := setDeviceRules_logs hmatch hrun
  · exact ⟨moments, hlog, List.forall_mem_cons.mpr ⟨hend, hlists fun m hm => (hall m hm).2⟩,
      fun _ m hm => (hall m hm).1⟩
  · refine ⟨moments, hlog, List.forall_mem_cons.mpr ⟨hend, hlists fun m hm => (hall m hm).2⟩, ?_⟩
    rintro ⟨m, hm, hfailed⟩
    rw [(hall m hm).1] at hfailed
    cases hfailed

/-- A ledger matches when its bits are effective and nothing else covers them. -/
theorem Split.matches_of {s : Split}
    (h : ∀ bit ∈ s.owned, s.list.Effective bit ∧ covered s.baseline bit = false) : s.Matches := by
  refine fun bit => ⟨h bit, fun ⟨heffective, hno⟩ => ?_⟩
  by_contra ho
  rw [Split.baseline, Bool.eq_false_iff, ne_eq, covered_withoutOwned] at hno
  rcases DevicesList.effective_iff.mp heffective with hb | hw
  · exact hno (.inl ⟨hb, ho⟩)
  · exact hno (.inr hw)

/-- `c 10:200 w`. -/
def tunWriteBit : DevBit := ⟨.char, 10, 200, .write⟩

/-- `c 1:* m` and `c 10:200 rw`, where the writing is the daemon's. -/
def grantedWorld : World where
  list := ⟨[⟨.of .char, 1, wildcard, 4⟩, ⟨.of .char, 10, 200, 3⟩], by unfold Distinct; decide⟩
  ledger := fun _ => {tunWriteBit}
  calls := 0
  log := []

theorem grantedWorld_matches : (grantedWorld.split sampleId).Matches := by
  refine Split.matches_of fun bit hb => ?_
  obtain rfl : bit = tunWriteBit := Finset.mem_singleton.mp hb
  refine ⟨show covered grantedWorld.list.entries tunWriteBit = true by decide, ?_⟩
  rw [Split.baseline, Bool.eq_false_iff, ne_eq, covered_withoutOwned]
  rintro (⟨-, ho⟩ | hw)
  · exact ho hb
  · revert hw
    decide

/-- `c 5:1 rw`. -/
def ttyRule : DeviceRule := ⟨true, "c", some 5, some 1, "rw"⟩

/-- The fourth file call fails. -/
def fourthFails : Env :=
  ⟨fun n => if n = 3 then some (.write "c 5:1 w" "devices.allow" Errno.inval) else none⟩

/-- The old grant is revoked, half of the new one is made, and the call for the other half fails. -/
theorem never_mixes_half_granted :
    ∃ r w' moments, setDeviceRules fourthFails sampleId [ttyRule] grantedWorld = (r, w') ∧
      r.isOk = false ∧
      ¬ w'.list.Effective tunWriteBit ∧ w'.list.Effective ⟨.char, 5, 1, .read⟩ ∧
      w'.log = grantedWorld.log ++ moments ∧
      ∀ list ∈ w'.list :: moments.map Moment.list,
        Unmixed (grantedWorld.split sampleId) [ttyRule] list := by
  obtain ⟨r, w', h⟩ := (setDeviceRules fourthFails sampleId [ttyRule]).exists_run grantedWorld
  have hruns : ∀ p, setDeviceRules fourthFails sampleId [ttyRule] grantedWorld = p →
      p.1.isOk = false ∧ covered p.2.list.entries tunWriteBit = false ∧
        covered p.2.list.entries ⟨.char, 5, 1, .read⟩ = true := by
    rintro p rfl
    decide +kernel
  obtain ⟨hfailed, hrevoked, hgranted⟩ := hruns _ h
  obtain ⟨moments, hlog, hall, -⟩ := never_mixes _ sampleId grantedWorld w' [ttyRule] r
    grantedWorld_matches h
  exact ⟨r, w', moments, h, hfailed, Bool.eq_false_iff.mp hrevoked, hgranted, hlog, hall⟩

end V1
end Sda
