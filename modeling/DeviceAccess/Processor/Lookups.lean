import DeviceAccess.Lib.Triple
import DeviceAccess.Lib.View
import DeviceAccess.Processor.Tree

/-!
# The lookups of one name

`DevFs.logged` is a `/dev` that writes down the paths it is asked to look up and answers as before.
The paths come from the alias and from the texts of links, which anybody who can write to a mounted
directory chooses. Shown of every `/dev` and every alias:

* no path leads out: each is relative, clean and without a `..` (`Beneath`);
* the lookups end: there are at most `maxLinkHops` rounds, each opens its path, at most every front
  of it, and reads at most one link (`Rounded`).

What carries both is that the path of a round is a sequence of names (`IsRel`): the gate lets only
such paths pass, and putting the names of a target before the rest of a path gives such a path
again.
-/

namespace Sda
namespace Processor

open Lexpath

/-! ## What is looked up -/

/-- A call that takes a path. -/
inductive DevCall where
  | openBeneath (path : Path)
  | readLink (path : Path)
  deriving DecidableEq, Repr

namespace DevCall

def path : DevCall → Path
  | openBeneath path => path
  | readLink path => path

def isOpen : DevCall → Bool
  | openBeneath _ => true
  | readLink _ => false

def isRead : DevCall → Bool
  | openBeneath _ => false
  | readLink _ => true

end DevCall

variable {σ ν : Type}

/-- The same computation, with a lookup written down. -/
def logging {α : Type} (lookup : DevCall) (x : Action σ SysError α) :
    Action (σ × List DevCall) SysError α :=
  fun s => ((x s.1).1, (x s.1).2, s.2 ++ [lookup])

/-- The same computation, with nothing written down. -/
def unlogged {ε α : Type} (x : Action σ ε α) : Action (σ × List DevCall) ε α :=
  fun s => ((x s.1).1, (x s.1).2, s.2)

theorem logging_triple {α : Type} {call : DevCall} {x : Action σ SysError α}
    {pre post : σ × List DevCall → Prop} (h : ∀ s s', pre s → post (s', s.2 ++ [call])) :
    Triple pre (logging call x) (fun _ => post) fun _ => post := by
  intro s hs
  rw [logging]
  cases (x s.1).1 with
  | error e => exact h s _ hs
  | ok a => exact h s _ hs

theorem unlogged_triple {ε α : Type} {x : Action σ ε α} {pre post : σ × List DevCall → Prop}
    (h : ∀ s s', pre s → post (s', s.2)) :
    Triple pre (unlogged x) (fun _ => post) fun _ => post := by
  intro s hs
  rw [unlogged]
  cases (x s.1).1 with
  | error e => exact h s _ hs
  | ok a => exact h s _ hs

/-- The same `/dev`, with its lookups written down. -/
def DevFs.logged (dev : DevFs σ ν) : DevFs (σ × List DevCall) ν where
  root := dev.root
  openBeneath path := logging (.openBeneath path) (dev.openBeneath path)
  stat node := unlogged (dev.stat node)
  resolved node s := ((dev.resolved node s.1).1, (dev.resolved node s.1).2, s.2)
  readLink path := logging (.readLink path) (dev.readLink path)
  readUevent id := unlogged (dev.readUevent id)
  walk path s := ((dev.walk path s.1).1, (dev.walk path s.1).2, s.2)

/-- A path that cannot lead out of the directory it is looked up in. -/
structure Beneath (path : Path) : Prop where
  nonempty : path ≠ []
  relative : path.head? ≠ some '/'
  clean : clean path = path
  no_dotdot : dotdot ∉ elements path

/-- The lookups of one round for a path: the path itself first, at most as many further opens as it
has components, and at most one link. -/
structure IsRound (path : Path) (lookups : List DevCall) : Prop where
  first : lookups.head? = some (.openBeneath path)
  opens : lookups.countP DevCall.isOpen ≤ (elements path).length + 1
  reads : lookups.countP DevCall.isRead ≤ 1

/-- The lookups are those of at most `limit` rounds. -/
def Rounded (limit : Nat) (lookups : List DevCall) : Prop :=
  ∃ rounds : List (Path × List DevCall), rounds.length ≤ limit ∧ lookups = rounds.flatMap (·.2) ∧
    ∀ round ∈ rounds, IsRound round.1 round.2

/-! ## Writing down changes nothing -/

section Logged

variable {dev : DevFs σ ν}

theorem escapeFrom_views {rel : Path} {before rest : List Path} :
    Views Prod.fst (escapeFrom dev.logged rel before rest) (escapeFrom dev rel before rest) := by
  induction rest generalizing before with
  | nil => exact Views.pure _
  | cons part rest ih =>
    refine Views.bind (Views.attempt fun _ => rfl) fun outcome => ?_
    cases outcome with
    | ok node => exact ih
    | error error =>
      refine Views.ite (Views.fail _) (Views.bind (fun _ => rfl) fun target => ?_)
      exact Views.ite (Views.pure _) (Views.pure _)

theorem openFrom_views {aliasPath rel : Path} {rounds : Nat} :
    Views Prod.fst (openFrom dev.logged aliasPath rounds rel)
    (openFrom dev aliasPath rounds rel) := by
  induction rounds generalizing rel with
  | zero => exact Views.fail _
  | succ rounds ih =>
    refine Views.bind (Views.attempt fun _ => rfl) fun outcome => ?_
    cases outcome with
    | ok node => exact Views.pure _
    | error error =>
      refine Views.ite (Views.pure _) (Views.ite (Views.fail _) ?_)
      refine Views.bind (Views.mapErr escapeFrom_views _) fun hop => ?_
      cases hop with
      | outside target => exact Views.pure _
      | retry next => exact ih

private theorem canonicalName_views (id : DeviceId) :
    Views Prod.fst (canonicalName dev.logged id) (canonicalName dev id) :=
  Views.bind (Views.mapErr (fun _ => rfl) _) fun _ => Views.ofExcept _

/-- The logged `/dev` gives the same evaluation. -/
theorem evaluateCandidate_views (aliasPath : Path) (judge : Judge) (s : σ × List DevCall) :
    evaluateCandidate dev aliasPath judge s.1 = ((evaluateCandidate dev.logged aliasPath judge s).1,
      (evaluateCandidate dev.logged aliasPath judge s).2.1) := by
  unfold evaluateCandidate
  by_cases hunder : (!underDev aliasPath) = true
  · simp only [if_pos hunder]
  · simp only [if_neg hunder]
    have hopen : openCandidate dev aliasPath s.1 = ((openCandidate dev.logged aliasPath s).1,
      (openCandidate dev.logged aliasPath s).2.1) := openFrom_views s
    rw [hopen]
    rcases openCandidate dev.logged aliasPath s with ⟨_ | ⟨node | reason⟩, s₁⟩
    · rfl
    · have hstat : dev.logged.stat node s₁ =
        ((dev.stat node s₁.1).1, (dev.stat node s₁.1).2, s₁.2) := rfl
      simp only [hstat]
      rcases dev.stat node s₁.1 with ⟨_ | kind, s₂⟩
      · rfl
      · have hresolved : dev.logged.resolved node (s₂, s₁.2) =
          ((dev.resolved node s₂).1, (dev.resolved node s₂).2, s₁.2) := rfl
        simp only [hresolved]
        cases kind with
        | dir => rfl
        | other => rfl
        | device id =>
          have hname := @canonicalName_views _ _ dev id ((dev.resolved node s₂).2, s₁.2)
          simp only [hname]
          rcases canonicalName dev.logged id
            ((dev.resolved node s₂).2, s₁.2) with ⟨_ | canonical, s₃⟩
          · rfl
          · rfl
    · rfl

end Logged

/-! ## The paths of the rounds -/

/-- A path of names relative to `/dev`. -/
def IsRel (path : Path) : Prop := ∃ names, (∀ name ∈ names, IsName name) ∧ path = text false names

theorem IsRel.beneath {path : Path} (h : IsRel path) : Beneath path := by
  obtain ⟨names, hnames, rfl⟩ := h
  have hhead := text_head false hnames
  have hclean := clean_text false hnames
  by_cases hne : names = []
  · subst hne
    exact ⟨by decide, by decide, hclean, by decide +kernel⟩
  · refine ⟨fun hnil => ?_, fun h => ?_, hclean, ?_⟩
    · rw [text_of_ne_nil hne] at hnil
      exact hne ((intercalate_eq_nil fun name hn => (hnames name hn).nonempty).mp hnil)
    · rw [h] at hhead
      cases hhead
    · rw [elements_text_false hnames hne]
      exact fun hmem => (hnames _ hmem).not_dotdot rfl

/-- What the gate lets pass is a path of names. -/
theorem relToDev_isRel {path : Path} (h : underDev path = true) : IsRel (relToDev path) := by
  obtain ⟨names, hnames, rfl⟩ := underDev_iff.mp h
  exact ⟨names, hnames, relToDev_devText names⟩

section Fronts

variable {rel part : Path} {before rest : List Path}

/-- The elements of a path of names are names, unless the path is `.`. -/
theorem IsRel.elements (h : IsRel rel) :
    rel = dot ∧ elements rel = [dot] ∨ ∀ name ∈ elements rel, IsName name := by
  obtain ⟨names, hnames, rfl⟩ := h
  by_cases hne : names = []
  · subst hne
    exact .inl ⟨rfl, by decide +kernel⟩
  · rw [elements_text_false hnames hne]
    exact .inr hnames

/-- A front of a path of names is one. -/
theorem IsRel.front (h : IsRel rel) (hparts : Lexpath.elements rel = before ++ part :: rest) :
    IsRel (['/'].intercalate (before ++ [part])) := by
  rcases h.elements with ⟨-, hdot⟩ | hnames
  · rw [hdot] at hparts
    cases before with
    | nil =>
      cases hparts
      exact ⟨[], nofun, rfl⟩
    | cons first before =>
      have := congrArg List.length hparts
      simp at this
  · rw [hparts] at hnames
    refine ⟨before ++ [part], fun name hn => hnames name ?_, ?_⟩
    · rw [List.append_cons]
      exact List.mem_append_left _ hn
    · rw [text_of_ne_nil (by simp)]
      rfl

/-- What comes after a part is a sequence of names. -/
theorem IsRel.rest_names (h : IsRel rel) (hparts : Lexpath.elements rel = before ++ part :: rest) :
    ∀ name ∈ rest, IsName name := by
  rcases h.elements with ⟨-, hdot⟩ | hnames
  · rw [hdot] at hparts
    have := congrArg List.length hparts
    have hrest : rest = [] := by
      rw [← List.length_eq_zero_iff]
      simp at this
      omega
    rw [hrest]
    nofun
  · intro name hn
    exact hnames name (by rw [hparts]; simp [hn])

/-- The target of a link put before the rest of a path. -/
theorem join_isRel {target : Path} (htarget : underDev target = true)
    (hrest : ∀ name ∈ rest, IsName name) :
    IsRel (join (relToDev target :: rest)) := by
  obtain ⟨names, hnames, hrel⟩ := relToDev_isRel htarget
  rw [hrel, join_text hnames hrest]
  exact ⟨names ++ rest, fun name hn => (List.mem_append.mp hn).elim (hnames name) (hrest name), rfl⟩

end Fronts

/-! ## The lookups of a round -/

/-- Since `past`: at most so many opens and links, of paths that lead nowhere else. -/
def Looked (past : List DevCall) (opens reads : Nat) (s : σ × List DevCall) : Prop :=
  ∃ lookups, s.2 = past ++ lookups ∧ (∀ lookup ∈ lookups, Beneath lookup.path) ∧
    lookups.countP DevCall.isOpen ≤ opens ∧ lookups.countP DevCall.isRead ≤ reads

namespace Looked

variable {dev : DevFs σ ν} {past : List DevCall} {opens opens' reads reads' : Nat}
  {s : σ × List DevCall}

theorem mono (h : Looked past opens reads s) (hopens : opens ≤ opens') (hreads : reads ≤ reads') :
    Looked past opens' reads' s := by
  obtain ⟨lookups, hlog, hbeneath, ho, hr⟩ := h
  exact ⟨lookups, hlog, hbeneath, Nat.le_trans ho hopens, Nat.le_trans hr hreads⟩

/-- One call more. -/
theorem logging {α : Type} {call : DevCall} (hpath : Beneath call.path) (x : Action σ SysError α) :
    Triple (Looked past opens reads) (logging call x)
      (fun _ => Looked past (opens + call.isOpen.toNat) (reads + call.isRead.toNat))
      fun _ => Looked past (opens + call.isOpen.toNat) (reads + call.isRead.toNat) := by
  refine logging_triple fun s s' ⟨calls, hlog, hbeneath, ho, hr⟩ => ?_
  refine ⟨calls ++ [call], by rw [hlog, List.append_assoc], ?_, ?_, ?_⟩
  · intro other hother
    rcases List.mem_append.mp hother with hother | hother
    · exact hbeneath other hother
    · rw [List.mem_singleton.mp hother]
      exact hpath
  · rw [List.countP_append, List.countP_singleton]
    cases call <;> simp [DevCall.isOpen] <;> omega
  · rw [List.countP_append, List.countP_singleton]
    cases call <;> simp [DevCall.isRead] <;> omega

theorem openBeneath {path : Path} (hpath : Beneath path) :
    Triple (Looked past opens reads) (dev.logged.openBeneath path)
      (fun _ => Looked past (opens + 1) reads)
      fun _ => Looked past (opens + 1) reads :=
  @logging _ past opens reads _ (.openBeneath path) hpath (dev.openBeneath path)

theorem readLink {path : Path} (hpath : Beneath path) :
    Triple (Looked past opens reads) (dev.logged.readLink path)
      (fun _ => Looked past opens (reads + 1))
      fun _ => Looked past opens (reads + 1) :=
  @logging _ past opens reads _ (.readLink path) hpath (dev.readLink path)

end Looked

section Rounds

variable {dev : DevFs σ ν} {past : List DevCall} {aliasPath rel : Path}

/-- `escape_hop` opens each front at most once and reads at most one link. What it wants retried is
a path of names. -/
theorem escapeFrom_looked (hrel : IsRel rel) {rest : List Path} :
    ∀ {before : List Path} {opens : Nat}, elements rel = before ++ rest →
      Triple (Looked past opens 0) (escapeFrom dev.logged rel before rest)
        (fun hop s => (∀ next, hop = .retry next → IsRel next) ∧
          Looked past (opens + rest.length) 1 s)
        fun _ => Looked past (opens + rest.length) 1 := by
  induction rest with
  | nil =>
    intro before opens _
    refine Triple.pure _ fun s hs => ⟨fun next hnext => ?_, hs.mono (Nat.le_refl _) (Nat.zero_le _)⟩
    cases hnext
    exact hrel
  | cons part rest ih =>
    intro before opens hparts
    have hfront := hrel.front hparts
    have hlength : opens + 1 ≤ opens + (part :: rest).length := by
      rw [List.length_cons]
      omega
    refine Triple.bind (Triple.attempt (fun _ => Looked past (opens + 1) 0)
      (Looked.openBeneath hfront.beneath)) fun outcome => ?_
    cases outcome with
    | ok node =>
      have := @ih (before ++ [part]) (opens + 1) (by rw [hparts, List.append_assoc]; rfl)
      rwa [show opens + 1 + rest.length = opens + (part :: rest).length by
        rw [List.length_cons]; omega] at this
    | error error =>
      refine Triple.ite (fun _ => Triple.fail _ fun s hs => hs.mono hlength (Nat.zero_le _))
        fun _ => ?_
      refine Triple.bind ((Looked.readLink hfront.beneath).weaken (fun _ hs => hs)
        (fun _ _ hs => hs) fun _ s hs => hs.mono hlength (Nat.le_refl _)) fun target => ?_
      refine Triple.ite (fun _ => ?_) fun hinside => ?_
      · exact Triple.pure _ fun s hs => ⟨nofun, hs.mono hlength (Nat.le_refl _)⟩
      · refine Triple.pure _ fun s hs => ⟨fun next hnext => ?_, hs.mono hlength (Nat.le_refl _)⟩
        cases hnext
        refine join_isRel ?_ (hrel.rest_names hparts)
        simp only [ne_eq, Bool.or_eq_true, decide_eq_true_eq, Bool.not_eq_true', not_or,
          Bool.not_eq_false] at hinside
        exact hinside.2

/-- Lookups of paths that lead nowhere else, in at most so many rounds. -/
def InRounds (limit : Nat) (s : σ × List DevCall) : Prop :=
  (∀ lookup ∈ s.2, Beneath lookup.path) ∧ Rounded limit s.2

theorem InRounds.mono {limit limit' : Nat} {s : σ × List DevCall} (h : InRounds limit s)
    (hle : limit ≤ limit') : InRounds limit' s := by
  obtain ⟨hbeneath, rounds, hlength, hrounds⟩ := h
  exact ⟨hbeneath, rounds, Nat.le_trans hlength hle, hrounds⟩

/-- The round that begins by opening `rel` after `past`. -/
theorem InRounds.round {limit : Nat} {s₀ s : σ × List DevCall} (h : InRounds limit s₀)
    (hrel : IsRel rel) (hs : Looked (s₀.2 ++ [.openBeneath rel]) (elements rel).length 1 s) :
    InRounds (limit + 1) s := by
  obtain ⟨hbeneath, rounds, hlength, hlog, hrounds⟩ := h
  obtain ⟨lookups, hlog', hbeneath', hopens, hreads⟩ := hs
  refine ⟨fun lookup hl => ?_, rounds ++ [(rel, .openBeneath rel :: lookups)],
    ?_, ?_, fun round hr => ?_⟩
  · rw [hlog'] at hl
    rcases List.mem_append.mp hl with hl | hl
    · rcases List.mem_append.mp hl with hl | hl
      · exact hbeneath lookup hl
      · rw [List.mem_singleton.mp hl]
        exact hrel.beneath
    · exact hbeneath' lookup hl
  · rw [List.length_append, List.length_singleton]
    exact Nat.succ_le_succ hlength
  · rw [hlog', hlog, List.flatMap_append]
    simp
  · rcases List.mem_append.mp hr with hr | hr
    · exact hrounds round hr
    · rw [List.mem_singleton.mp hr]
      refine ⟨rfl, ?_, ?_⟩
      · rw [List.countP_cons_of_pos rfl]
        exact Nat.succ_le_succ hopens
      · rw [List.countP_cons_of_neg (show ¬ false = true by decide)]
        exact hreads

theorem openBeneath_first {s₀ : σ × List DevCall} (path : Path) :
    Triple (· = s₀) (dev.logged.openBeneath path)
      (fun _ => Looked (s₀.2 ++ [.openBeneath path]) 0 0)
      fun _ => Looked (s₀.2 ++ [.openBeneath path]) 0 0 := by
  refine logging_triple fun s s' hs => ?_
  rw [hs]
  exact ⟨[], (List.append_nil _).symm, nofun, Nat.le_refl _, Nat.le_refl _⟩

/-- `open_candidate` looks up in at most the rounds that are left. -/
theorem openFrom_rounds {rounds : Nat} :
    ∀ {rel : Path} {done : Nat}, IsRel rel →
      Triple (InRounds done) (openFrom dev.logged aliasPath rounds rel)
        (fun _ => InRounds (done + rounds))
        fun _ => InRounds (done + rounds) := by
  induction rounds with
  | zero => exact fun _ => Triple.fail _ fun s hs => hs
  | succ rounds ih =>
    intro rel done hrel s₀ hs₀
    -- The calls of this round are those after `s₀`.
    have hround : Triple (· = s₀) (openFrom dev.logged aliasPath (rounds + 1) rel)
        (fun _ => InRounds (done + (rounds + 1))) fun _ => InRounds (done + (rounds + 1)) := by
      have hend : ∀ s, Looked (s₀.2 ++ [.openBeneath rel]) (elements rel).length 1 s →
          InRounds (done + (rounds + 1)) s := fun s hs => (hs₀.round hrel hs).mono (by omega)
      refine Triple.bind (Triple.attempt (fun _ => Looked (s₀.2 ++ [.openBeneath rel]) 0 0)
        (openBeneath_first rel)) fun outcome => ?_
      cases outcome with
      | ok node => exact Triple.pure _ fun s hs => hend s (hs.mono (Nat.zero_le _) (Nat.zero_le _))
      | error error =>
        refine Triple.ite (fun _ => ?_) fun _ => Triple.ite (fun _ => ?_) fun _ => ?_
        · exact Triple.pure _ fun s hs => hend s (hs.mono (Nat.zero_le _) (Nat.zero_le _))
        · exact Triple.fail _ fun s hs => hend s (hs.mono (Nat.zero_le _) (Nat.zero_le _))
        · have hhop := @escapeFrom_looked _ _ dev (s₀.2 ++ [.openBeneath rel]) _ hrel
            (elements rel) [] 0 rfl
          rw [Nat.zero_add] at hhop
          refine Triple.bind (Triple.mapErr (hhop.weaken (fun _ hs => hs) (fun _ _ hs => hs)
            fun _ s hs => hend s hs)) fun hop => ?_
          cases hop with
          | outside target => exact Triple.pure _ fun s hs => hend s hs.2
          | retry next =>
            refine Triple.lift fun hnext => ?_
            have := @ih next (done + 1) (hnext next rfl)
            rw [Nat.add_assoc, Nat.add_comm 1 rounds] at this
            exact this.of_pre _ fun s hs => hs₀.round hrel hs
    exact hround s₀ rfl

theorem canonicalName_calls (id : DeviceId) (s : σ × List DevCall) :
    (canonicalName dev.logged id s).2.2 = s.2 := by
  have hkeeps : Triple (fun s' => s'.2 = s.2) (canonicalName dev.logged id) (fun _ s' => s'.2 = s.2)
      fun _ s' => s'.2 = s.2 := by
    refine Triple.bind (Triple.mapErr (unlogged_triple fun _ _ hs => hs)) fun data => ?_
    exact Triple.ofExcept _ (fun _ _ _ hs => hs) fun _ _ _ hs => hs
  exact hkeeps.after rfl

/-- What `evaluate_candidate` writes down is what its `open_candidate` does. -/
theorem evaluateCandidate_calls (judge : Judge) {s : σ × List DevCall}
    (h : underDev aliasPath = true) :
    (evaluateCandidate dev.logged aliasPath judge s).2.2 =
    (openCandidate dev.logged aliasPath s).2.2 := by
  unfold evaluateCandidate
  rw [h]
  simp only [Bool.not_true, Bool.false_eq_true, if_false]
  rcases openCandidate dev.logged aliasPath s with ⟨_ | ⟨node | reason⟩, s₁⟩
  · rfl
  · have hstat : dev.logged.stat node s₁ = ((dev.stat node s₁.1).1, (dev.stat node s₁.1).2, s₁.2) :=
      rfl
    simp only [hstat]
    rcases dev.stat node s₁.1 with ⟨_ | kind, s₂⟩
    · rfl
    · cases kind with
      | dir => rfl
      | other => rfl
      | device id =>
        have hname := @canonicalName_calls _ _ dev id (dev.logged.resolved node (s₂, s₁.2)).2
        dsimp only
        revert hname
        rcases canonicalName dev.logged id
          (dev.logged.resolved node (s₂, s₁.2)).2 with ⟨_ | canonical, s₃⟩
        · exact fun hname => hname
        · exact fun hname => hname
  · rfl

end Rounds

/-- No lookup leaves `/dev`, and every lookup ends: with its calls written down,
`evaluate_candidate` gives the same evaluation, each path it passed to `open_beneath` or `read_link`
leads nowhere else, and the calls are those of at most 40 rounds. -/
theorem lookups_beneath_and_bounded (dev : DevFs σ ν) (aliasPath : Path) (judge : Judge) (s : σ) :
    ∃ calls, evaluateCandidate dev.logged aliasPath judge (s, []) =
        ((evaluateCandidate dev aliasPath judge s).1, (evaluateCandidate dev aliasPath judge s).2,
          calls) ∧
      (∀ call ∈ calls, Beneath call.path) ∧ Rounded 40 calls := by
  have hsame := @evaluateCandidate_views _ _ dev aliasPath judge (s, [])
  have hnone : InRounds 0 (s, ([] : List DevCall)) := ⟨nofun, [], Nat.le_refl _, rfl, nofun⟩
  refine ⟨(evaluateCandidate dev.logged aliasPath judge (s, [])).2.2, by rw [hsame], ?_⟩
  by_cases hunder : underDev aliasPath = true
  · rw [evaluateCandidate_calls judge hunder]
    have hrounds : InRounds (0 + maxLinkHops) (openCandidate dev.logged aliasPath (s, [])).2 :=
      (openFrom_rounds (relToDev_isRel hunder)).after hnone
    rwa [Nat.zero_add] at hrounds
  · have hskip : (evaluateCandidate dev.logged aliasPath judge (s, [])).2 = (s, []) := by
      unfold evaluateCandidate
      rw [if_pos (by rw [Bool.not_eq_true'] ; exact Bool.eq_false_iff.mpr hunder)]
    rw [hskip]
    exact hnone.mono (Nat.zero_le _)

end Processor
end Sda
