import DeviceAccess.V2.Repeat

/-!
# A pass with a wipe in the middle

A wipe is not serialised with a pass. Here it comes right before one of the pass's kernel calls, and
the pass ends without an error nevertheless. `call_struck` turns a call after a wipe into a call of
a calm environment in the wiped world, so that the inversions of the single calls apply.

Reading and loading do not notice a wipe (`Ticked`). A step that replaces or detaches a program
fails after it, so that only attaches can follow (`Performed.calm`), and what is attached in the end
is what was attached after the wipe (`setRules_wiped`).
-/

namespace Sda
namespace V2

open Asm Sda.Filter Handover

variable {sha256 : Bytes → Vector Byte 32}

/-- From call `first` on, the only wipe comes right before call `moment`. -/
def Env.WipedAt (env : Env) (first moment : Nat) : Prop :=
  ∀ n, first ≤ n → (env.wiped n = true ↔ n = moment)

theorem Env.WipedAt.mono {env : Env} {first first' moment : Nat} (h : env.WipedAt first moment)
    (hf : first ≤ first') : env.WipedAt first' moment := fun n hn => h n (Nat.le_trans hf hn)

theorem Env.WipedAt.calm {env : Env} {first moment : Nat} (h : env.WipedAt first moment)
    (hm : moment < first) : env.CalmFrom first := fun n hn => by
  rw [← Bool.not_eq_true, h n hn]
  omega

/-! ## One call -/

/-- The same environment without wipes. -/
def Env.calm (env : Env) : Env := { env with wiped := fun _ => false }

/-- The world a call finds: a wipe may come right before it. -/
def World.struck (w : World sha256) (env : Env) : World sha256 :=
  if env.wiped w.calls then w.wipe else w

section Calls

variable {env : Env} {moment : Nat} {w w' : World sha256}

theorem call_struck {α : Type} (event : Event) (effect : Kernel → Except OpsError (α × Kernel)) :
    call env event effect w = call env.calm event effect (w.struck env) := by
  unfold call World.struck Env.calm
  cases env.wiped w.calls <;> rfl

theorem struck_attached (hw : env.WipedAt w.calls moment) :
    (w.struck env).kernel.attached = if w.calls = moment then [] else w.kernel.attached := by
  have hiff := hw w.calls (Nat.le_refl _)
  unfold World.struck
  by_cases h : w.calls = moment
  · rw [if_pos (hiff.mpr h), if_pos h]
    rfl
  · rw [if_neg (fun hwiped => h (hiff.mp hwiped)), if_neg h]

theorem struck_cache (w : World sha256) (env : Env) : (w.struck env).cache = w.cache := by
  unfold World.struck
  split <;> rfl

private theorem struck_drawn (w : World sha256) (env : Env) : (w.struck env).drawn = w.drawn := by
  unfold World.struck
  split <;> rfl

theorem struck_calls (w : World sha256) (env : Env) : (w.struck env).calls = w.calls := by
  unfold World.struck
  split <;> rfl

theorem struck_nextId (w : World sha256) (env : Env) :
    (w.struck env).kernel.nextId = w.kernel.nextId := by
  unfold World.struck
  split <;> rfl

/-- After `n` calls that make no change themselves. -/
structure Ticked (moment n : Nat) (w w' : World sha256) : Prop where
  cache : w'.cache = w.cache
  drawn : w'.drawn = w.drawn
  calls : w'.calls = w.calls + n
  attached : w'.kernel.attached =
    if w.calls ≤ moment ∧ moment < w.calls + n then [] else w.kernel.attached

theorem Ticked.refl (moment : Nat) (w : World sha256) : Ticked moment 0 w w :=
  ⟨rfl, rfl, rfl, by rw [if_neg (by omega)]⟩

theorem Ticked.trans {n m : Nat} {w₁ : World sha256} (h : Ticked moment n w w₁)
    (h' : Ticked moment m w₁ w') : Ticked moment (n + m) w w' := by
  refine ⟨h'.cache.trans h.cache, h'.drawn.trans h.drawn, by rw [h'.calls, h.calls]; omega, ?_⟩
  rw [h'.attached, h.attached, h.calls]
  split_ifs <;> first | rfl | omega

theorem Called.ticked {event : Event} (hw : env.WipedAt w.calls moment)
    (h : Called event (w.struck env) w')
    (hnow : w'.kernel.attached = (w.struck env).kernel.attached) : Ticked moment 1 w w' := by
  refine ⟨h.cache.trans (struck_cache w env), h.drawn.trans (struck_drawn w env),
    by rw [h.calls, struck_calls], ?_⟩
  rw [hnow, struck_attached hw]
  split_ifs <;> first | rfl | omega

/-! ## Reading and loading -/

theorem classifyFrom_ticked {index : Nat} {progs : List Prog} {found : List (AttachedProg sha256)}
    (hw : env.WipedAt w.calls moment) (h : classifyFrom env index progs w = (.ok found, w')) :
    classifyAll index progs = .ok found ∧ Ticked moment progs.length w w' ∧
      w'.kernel.nextId = w.kernel.nextId := by
  induction progs generalizing index w found with
  | nil =>
    cases h
    exact ⟨rfl, .refl _ _, rfl⟩
  | cons prog progs ih =>
    rw [classifyFrom] at h
    obtain ⟨first, w₁, hone, hmore⟩ := Action.bind_ok_inv h
    obtain ⟨rest, w₂, hrest, hend⟩ := Action.bind_ok_inv hmore
    cases hend
    rw [classify] at hone
    obtain ⟨dump, w₀, hread, hpure⟩ := Action.bind_ok_inv hone
    obtain ⟨hd, rfl⟩ := ofExcept_inv hpure
    have hcall := Action.mapErr_ok_inv hread
    rw [instructions, call_struck] at hcall
    obtain ⟨hcalled, hk, ⟨e, he, -⟩ | hdump⟩ := instructions_inv rfl hcall
    · cases he
    have ht : Ticked moment 1 w w₁ := hcalled.ticked hw (by rw [hk])
    obtain ⟨hall, ht', hid⟩ := ih (hw.mono (by rw [ht.calls]; omega)) hrest
    refine ⟨?_, by rw [List.length_cons, Nat.add_comm]; exact ht.trans ht', ?_⟩
    · rw [classifyAll, ← hdump]
      simp only [Except.mapError, bind, Except.bind, hd, hall]
    · rw [hid, hk, struck_nextId]

theorem loadCanonical_ticked {raw : Bytes} {name : String} {prog : Prog}
    (hw : env.WipedAt w.calls moment) (hraw : CanonicalProgram raw)
    (h : loadCanonical env raw name w = (.ok prog, w')) :
    prog = newProg w.kernel.nextId raw ∧ Ticked moment 1 w w' ∧
      w'.kernel.nextId = w.kernel.nextId + 1 ∧ insnCnt raw ≤ env.insnLimit := by
  have hcalm : loadCanonical env.calm raw name (w.struck env) = (.ok prog, w') := by
    rw [loadCanonical] at h
    obtain ⟨is, w₁, hpure, hload⟩ := Action.bind_ok_inv h
    obtain ⟨hd, rfl⟩ := ofExcept_inv hpure
    have hcall := Action.mapErr_ok_inv hload
    rw [load, call_struck] at hcall
    rw [loadCanonical, hd]
    exact Action.mapErr_of_ok hcall
  obtain ⟨hcalled, hnow, -, ⟨hok, hid, hlim⟩ | ⟨e, he, -⟩⟩ := loadCanonical_inv rfl hraw hcalm
  · rw [struck_nextId] at hok hid
    exact ⟨Except.ok.inj hok, hcalled.ticked hw hnow, hid, hlim⟩
  · cases he

theorem loadAll_ticked {loads : List Load} {loaded : List Prog} (hw : env.WipedAt w.calls moment)
    (hloads : ∀ load ∈ loads, CanonicalProgram load.1)
    (h : loadAll env loads w = (.ok loaded, w')) :
    loaded = newProgs w.kernel.nextId (loads.map Prod.fst) ∧ Ticked moment loads.length w w' ∧
      ∀ load ∈ loads, insnCnt load.1 ≤ env.insnLimit := by
  induction loads generalizing w loaded with
  | nil =>
    cases h
    exact ⟨rfl, .refl _ _, nofun⟩
  | cons load loads ih =>
    rw [loadAll] at h
    obtain ⟨prog, w₁, hone, hmore⟩ := Action.bind_ok_inv h
    obtain ⟨progs, w₂, hrest, hend⟩ := Action.bind_ok_inv hmore
    cases hend
    obtain ⟨rfl, ht, hid, hlim⟩ := loadCanonical_ticked hw (hloads _ List.mem_cons_self) hone
    obtain ⟨rfl, ht', hlim'⟩ := ih (hw.mono (by rw [ht.calls]; omega))
      (fun load hm => hloads load (List.mem_cons_of_mem _ hm)) hrest
    refine ⟨by rw [hid]; rfl, by rw [List.length_cons, Nat.add_comm]; exact ht.trans ht', ?_⟩
    intro load' hm
    rcases List.mem_cons.mp hm with rfl | hm
    · exact hlim
    · exact hlim' load' hm

/-! ## Steps -/

/-- After steps that only the programs of the kernel are changed by. -/
structure Stepped (w w' : World sha256) : Prop where
  cache : w'.cache = w.cache
  calls : w.calls ≤ w'.calls

theorem Stepped.trans {w₁ : World sha256} (h : Stepped w w₁) (h' : Stepped w₁ w') : Stepped w w' :=
  ⟨h'.cache.trans h.cache, Nat.le_trans h.calls h'.calls⟩

theorem Called.stepped {event : Event} (h : Called event (w.struck env) w') : Stepped w w' :=
  ⟨h.cache.trans (struck_cache w env), by rw [h.calls, struck_calls]; omega⟩

theorem attach_struck {new : Prog} (h : attach env new fAllowMulti none w = (.ok (), w')) :
    Called (.attach new) (w.struck env) w' ∧
      w'.kernel.attached = (w.struck env).kernel.attached ++ [new] := by
  rw [attach, call_struck] at h
  obtain ⟨hcalled, -, ⟨-, hnow⟩ | ⟨e, he, -⟩⟩ := attach_inv rfl h
  · exact ⟨hcalled, hnow⟩
  · cases he

/-- A program that can be detached is attached, and no wipe came before. -/
theorem detach_struck {old : Prog} (h : detach env old w = (.ok (), w')) :
    Called (.detach old) (w.struck env) w' ∧ old ∈ (w.struck env).kernel.attached := by
  rw [detach, call_struck] at h
  obtain ⟨hcalled, -, ⟨-, hold, -⟩ | ⟨e, he, -⟩⟩ := detach_inv rfl h
  · exact ⟨hcalled, hold⟩
  · cases he

theorem mem_struck {prog : Prog} (hw : env.WipedAt w.calls moment)
    (h : prog ∈ (w.struck env).kernel.attached) : w.calls ≠ moment ∧ prog ∈ w.kernel.attached := by
  rw [struck_attached hw] at h
  split at h
  · cases h
  · rename_i hne
    exact ⟨hne, h⟩

/-- A step that takes a program away has found it attached, and no wipe came while it was made. -/
structure Found (old : Prog) (moment : Nat) (w w' : World sha256) : Prop where
  mem : old ∈ w.kernel.attached
  calm : moment < w.calls ∨ w'.calls ≤ moment
  stepped : Stepped w w'

theorem swapByDetach_found {old new : Prog} (hw : env.WipedAt w.calls moment) (hne : old ≠ new)
    (h : swapByDetach env old new w = (.ok (), w')) : Found old moment w w' := by
  rw [swapByDetach] at h
  obtain ⟨u, w₁, hattach, hrest⟩ := Action.bind_ok_inv h
  obtain ⟨hcalled, hnow⟩ := attach_struck (Action.mapErr_ok_inv hattach)
  have hs := hcalled.stepped
  have hcalls : w₁.calls = w.calls + 1 := by rw [hcalled.calls, struck_calls]
  cases hd : detach env old w₁ with
  | mk r₂ w₂ =>
    rw [Action.bind_of_ok (Action.attempt_eq hd)] at hrest
    cases r₂ with
    | error e =>
      cases hd₃ : detach env new w₂ with
      | mk r₃ w₃ =>
        simp only at hrest
        rw [Action.bind_of_ok (Action.attempt_eq hd₃)] at hrest
        cases r₃ <;> cases hrest
    | ok u =>
      cases hrest
      obtain ⟨hcalled₂, hold⟩ := detach_struck hd
      obtain ⟨hcalm₂, hold⟩ := mem_struck (hw.mono hs.calls) hold
      rw [hnow] at hold
      obtain ⟨hcalm, hold⟩ := mem_struck hw ((List.mem_append.mp hold).resolve_right fun hm =>
        hne (List.mem_singleton.mp hm))
      refine ⟨hold, ?_, hs.trans hcalled₂.stepped⟩
      have hcalls₂ : w'.calls = w₁.calls + 1 := by rw [hcalled₂.calls, struck_calls]
      omega

theorem swap_found {old new : Prog} (hw : env.WipedAt w.calls moment) (hne : old ≠ new)
    (h : V2.swap env old new w = (.ok (), w')) : Found old moment w w' := by
  rw [V2.swap, Action.bind_of_ok (show (Action.get : Action (World sha256) Error _) w = (.ok w, w)
    from rfl)] at h
  by_cases husable : w.replace.usable = true
  swap
  · rw [if_neg husable] at h
    exact swapByDetach_found hw hne h
  rw [if_pos husable] at h
  cases ha : attach env new fAllowMulti (some old) w with
  | mk r₁ w₁ =>
    rw [Action.bind_of_ok (Action.attempt_eq ha)] at h
    rw [Action.bind_of_ok (show (Action.modify _ : Action (World sha256) Error Unit) w₁ =
      (.ok (), { w₁ with replace := w₁.replace.record r₁ }) from rfl)] at h
    rw [attach, call_struck] at ha
    obtain ⟨hcalled, -, ⟨rfl, hold, -⟩ | ⟨e, rfl, hnow, -⟩⟩ := replace_inv rfl ha
    · cases h
      obtain ⟨hcalm, hold⟩ := mem_struck hw hold
      refine ⟨hold, ?_, ⟨hcalled.stepped.cache, hcalled.stepped.calls⟩⟩
      have hcalls : w₁.calls = w.calls + 1 := by rw [hcalled.calls, struck_calls]
      show moment < w.calls ∨ w₁.calls ≤ moment
      omega
    · -- The replace failed, and what follows has found the program.
      simp only at h
      rw [Action.bind_of_ok (show (Action.get : Action (World sha256) Error _) _ = (.ok _, _)
        from rfl)] at h
      split at h
      · cases h
      · have hcalls : w₁.calls = w.calls + 1 := by rw [hcalled.calls, struck_calls]
        have hw₁ : env.WipedAt ({ w₁ with replace := w₁.replace.record (.error e) } :
            World sha256).calls moment := hw.mono (by show w.calls ≤ w₁.calls; omega)
        obtain ⟨hold, hcalm', hs⟩ := swapByDetach_found hw₁ hne h
        obtain ⟨hcalm, hold⟩ := mem_struck hw (hnow ▸ hold)
        refine ⟨hold, ?_, ⟨hs.cache.trans hcalled.stepped.cache,
          Nat.le_trans hcalled.stepped.calls hs.calls⟩⟩
        have : moment < w₁.calls ∨ w'.calls ≤ moment := hcalm'
        omega

theorem perform_found {e : Edit Prog} {old : Prog} (hw : env.WipedAt w.calls moment)
    (ho : old ∈ e.olds) (hne : old ∉ e.news) (h : perform env e w = (.ok (), w')) :
    Found old moment w w' := by
  cases e with
  | attach new => cases ho
  | detach o =>
    cases List.mem_singleton.mp ho
    obtain ⟨hcalled, hold⟩ := detach_struck (Action.mapErr_ok_inv h)
    obtain ⟨hcalm, hold⟩ := mem_struck hw hold
    have hcalls : w'.calls = w.calls + 1 := by rw [hcalled.calls, struck_calls]
    exact ⟨hold, by omega, hcalled.stepped⟩
  | pair o new =>
    cases List.mem_singleton.mp ho
    exact swap_found hw (fun heq => hne (heq ▸ List.mem_cons_self)) h

/-- The edits were made, one after the other. -/
inductive Performed (env : Env) : World sha256 → List (Edit Prog) → World sha256 → Prop
  | nil (w : World sha256) : Performed env w [] w
  | cons {e : Edit Prog} {es : List (Edit Prog)} {w w₁ w' : World sha256} :
      perform env e w = (.ok (), w₁) → Performed env w₁ es w' → Performed env w (e :: es) w'

theorem executeFrom_performed {attached loaded : List Prog} {steps index : Nat} {plan : List Step}
    {todo : List (Edit Prog)}
    (hplan : List.Forall₂ (fun step e => step.edit attached loaded = some e) plan todo)
    (h : executeFrom env attached loaded steps index plan w = (.ok (), w')) :
    Performed env w todo w' := by
  induction hplan generalizing w index with
  | nil => cases h; exact .nil _
  | cons hstep _ ih =>
    rw [executeFrom] at h
    simp only [hstep] at h
    obtain ⟨u, w₁, hone, hrest⟩ := Action.bind_ok_inv h
    exact .cons (Action.mapErr_ok_inv hone) (ih hrest)

theorem Performed.append_inv {a b : List (Edit Prog)} (h : Performed env w (a ++ b) w') :
    ∃ w₁, Performed env w a w₁ ∧ Performed env w₁ b w' := by
  induction a generalizing w with
  | nil => exact ⟨w, .nil _, h⟩
  | cons e a ih =>
    cases h with
    | cons hone hrest =>
      obtain ⟨w₁, ha, hb⟩ := ih hrest
      exact ⟨w₁, .cons hone ha, hb⟩

/-- **No wipe comes while programs are replaced or detached**, and there is something to begin with.
-/
theorem Performed.calm {es : List (Edit Prog)} (h : Performed env w es w')
    (hw : env.WipedAt w.calls moment) (holds : ∀ e ∈ es, ∃ old ∈ e.olds, old ∉ e.news) :
    (moment < w.calls ∨ w'.calls ≤ moment) ∧ Stepped w w' ∧
      (w.kernel.attached = [] → es = []) := by
  induction h with
  | nil w => exact ⟨by omega, ⟨rfl, Nat.le_refl _⟩, fun _ => rfl⟩
  | cons hone _ ih =>
    obtain ⟨old, ho, hne⟩ := holds _ List.mem_cons_self
    obtain ⟨hmem, hcalm, hs⟩ := perform_found hw ho hne hone
    obtain ⟨hcalm', hs', -⟩ := ih (hw.mono hs.calls) fun e hm => holds e (List.mem_cons_of_mem _ hm)
    refine ⟨?_, hs.trans hs', fun hnil => ?_⟩
    · have := hs.calls
      have := hs'.calls
      omega
    · rw [hnil] at hmem
      cases hmem

/-- What attaches leave: when the wipe comes in between, those after it. -/
theorem Performed.attached {news : List Prog} (h : Performed env w (news.map .attach) w')
    (hw : env.WipedAt w.calls moment) :
    w'.cache = w.cache ∧ w'.calls = w.calls + news.length ∧
      w'.kernel.attached = if w.calls ≤ moment ∧ moment < w'.calls
        then news.drop (moment - w.calls) else w.kernel.attached ++ news := by
  induction news generalizing w with
  | nil =>
    cases h
    refine ⟨rfl, rfl, ?_⟩
    rw [if_neg (by omega), List.append_nil]
  | cons new news ih =>
    cases h with
    | @cons _ _ _ w₁ _ hone hrest =>
      obtain ⟨hcalled, hnow⟩ := attach_struck (Action.mapErr_ok_inv hone)
      have hcalls : w₁.calls = w.calls + 1 := by rw [hcalled.calls, struck_calls]
      obtain ⟨hcache, hcalls', hafter⟩ := ih hrest (hw.mono (by omega))
      refine ⟨hcache.trans hcalled.stepped.cache, by rw [hcalls', hcalls, List.length_cons]; omega,
        ?_⟩
      rw [hafter, hnow, struck_attached hw, hcalls', hcalls]
      by_cases heq : w.calls = moment
      · rw [if_neg (by omega), if_pos heq, if_pos (by omega), heq, Nat.sub_self]
        rfl
      · rw [if_neg heq]
        by_cases hin : w.calls + 1 ≤ moment ∧ moment < w.calls + 1 + news.length
        · rw [if_pos hin, if_pos (by omega), show moment - w.calls = moment -
            (w.calls + 1) + 1 by omega]
          rfl
        · rw [if_neg hin, if_neg (by omega), List.append_assoc]
          rfl

end Calls

/-! ## The two kinds of blocks -/

section Blocks

variable {source : Nat → Except NonceError (BitVec 64)} {rules : List DeviceRule} {n n' : Nat}
  {blocks : List (Block sha256)}

theorem GrantBlocks.members_ne {groups : List (WrapperGroup sha256)}
    (h : GrantBlocks rules groups blocks) : ∀ block ∈ blocks, block.part.members ≠ [] := by
  induction h with
  | nil => nofun
  | cons hfirst _ ih =>
    obtain ⟨desired, -, rfl⟩ := hfirst
    intro block hm
    rcases List.mem_cons.mp hm with rfl | hm
    · unfold grantBlock
      split <;> exact List.cons_ne_nil _ _
    · exact ih block hm

theorem BareBlocks.members_ne {bares : List (AttachedProg sha256)}
    (h : BareBlocks source rules n bares blocks n') :
    ∀ block ∈ blocks, block.part.members ≠ [] := by
  induction h with
  | nil => nofun
  | cons _ _ _ _ ih =>
    intro block hm
    rcases List.mem_cons.mp hm with rfl | hm
    · exact List.cons_ne_nil _ _
    · exact ih block hm

theorem restoreBlocks_members_ne (groups : List (WrapperGroup sha256))
    (available : List (AttachedProg sha256)) :
    ∀ block ∈ restoreBlocks groups available, block.part.members ≠ [] := by
  induction groups generalizing available with
  | nil =>
    intro block hm
    obtain ⟨bare, -, rfl⟩ := List.mem_map.mp hm
    exact List.cons_ne_nil _ _
  | cons group groups ih =>
    rw [restoreBlocks]
    split <;>
    · intro block hm
      rcases List.mem_cons.mp hm with rfl | hm
      · exact List.cons_ne_nil _ _
      · exact ih _ block hm

/-- What is attached again is a block of its own for each lineage. -/
theorem RebuildBlocks.attaches {cached : List (CachedLineage sha256)}
    (h : RebuildBlocks source rules n cached blocks n') :
    List.Forall₂ (fun lineage block => block.lineage.original = lineage.original ∧
      ∃ load, block.part = .attach load) cached blocks := by
  induction h with
  | nil => exact .nil
  | bare _ _ _ ih => exact .cons ⟨rfl, _, rfl⟩ ih
  | wrapped _ _ _ _ _ ih => exact .cons ⟨rfl, _, rfl⟩ ih

theorem realize_append (attached : List Prog) (id : Nat) (a b : List (Part Nat Load)) :
    realize attached id (a ++ b) =
      realize attached id a ++ realize attached (id + (a.flatMap loadsOf).length) b := by
  induction a generalizing id with
  | nil => rfl
  | cons part a ih =>
    rw [List.cons_append, realize, realize, ih, List.flatMap_cons, List.length_append,
      Nat.add_assoc]
    rfl

private theorem realize_length (attached : List Prog) (id : Nat) (parts : List (Part Nat Load)) :
    (realize attached id parts).length = parts.length := by
  induction parts generalizing id with
  | nil => rfl
  | cons part parts ih => rw [realize, List.length_cons, ih, List.length_cons]

private theorem edits_append (a b : List (Part Prog Prog)) : edits (a ++ b) = edits a ++ edits b :=
  List.flatMap_append

/-- The edits of a part with members take something away. -/
theorem realize_olds {attached : List Prog} {id : Nat} {parts : List (Part Nat Load)}
    (h : ∀ part ∈ parts, part.members ≠ []) :
    ∀ e ∈ edits (realize attached id parts), ∃ old, old ∈ e.olds := by
  induction parts generalizing id with
  | nil => nofun
  | cons part parts ih =>
    intro e he
    rw [realize, edits_cons] at he
    rcases List.mem_append.mp he with he | he
    · cases part with
      | keep keeper drops =>
        obtain ⟨old, -, rfl⟩ := List.mem_map.mp he
        exact ⟨old, List.mem_cons_self⟩
      | swap old load drops =>
        rcases List.mem_cons.mp he with rfl | he
        · exact ⟨_, List.mem_cons_self⟩
        · obtain ⟨old, -, rfl⟩ := List.mem_map.mp he
          exact ⟨old, List.mem_cons_self⟩
      | attach load => exact absurd rfl (h _ List.mem_cons_self)
    · exact ih (fun part hm => h part (List.mem_cons_of_mem _ hm)) e he

/-- The edits of the blocks that attach again. -/
theorem edits_attaches {attached : List Prog} {id : Nat} {parts : List (Part Nat Load)}
    (h : ∀ part ∈ parts, ∃ load, part = .attach load) :
    edits (realize attached id parts) =
      ((realize attached id parts).map Part.standin).map .attach := by
  induction parts generalizing id with
  | nil => rfl
  | cons part parts ih =>
    obtain ⟨load, rfl⟩ := h part List.mem_cons_self
    rw [realize, edits_cons, ih fun part hm => h part (List.mem_cons_of_mem _ hm)]
    rfl

end Blocks

/-! ## A whole pass -/

section Pass

variable {env : Env} {moment : Nat} {id : Identity} {rules : List DeviceRule}
  {w w₁ w' : World sha256} {progs : List (AttachedProg sha256)} {blocks : List (Block sha256)}
  {drawn : Nat}

theorem commit_ok_inv {attached : List Prog} {rebuilding : Bool}
    (h : commit env id attached (planOf blocks) rebuilding w = (.ok (), w')) :
    ∃ w₁, execute env attached (planOf blocks)
        (w.record id ⟨blocks.map Block.lineage, rebuilding⟩ .commit) = (.ok (), w₁) ∧
      w'.kernel = w₁.kernel ∧ w'.calls = w₁.calls ∧
      (w₁.cache = w.cache.set id ⟨blocks.map Block.lineage, rebuilding⟩ →
        w'.cache = w.cache.set id ⟨blocks.map Block.lineage, false⟩) := by
  rw [commit, planOf_lineages, Action.bind_of_ok (show remember id _ _ w =
    (.ok (), w.record id ⟨blocks.map Block.lineage, rebuilding⟩ .commit) from rfl)] at h
  obtain ⟨u, w₁, hx, hend⟩ := Action.bind_ok_inv h
  refine ⟨w₁, hx, ?_⟩
  cases rebuilding with
  | false => cases hend; exact ⟨rfl, rfl, fun hcache => hcache⟩
  | true =>
    cases hend
    refine ⟨rfl, rfl, fun hcache => ?_⟩
    show w₁.cache.set id _ = _
    rw [hcache, FilterCache.set_set]

/-- Reading and planning, with a wipe after the query. -/
theorem setRules_ok_inv (hw : env.WipedAt w.calls moment) (hfirst : w.calls < moment)
    (h : setRules env id rules w = (.ok (), w')) :
    ∃ progs blocks drawn w₁, Planned env.nonce id rules w progs blocks drawn ∧
      w₁.cache = w.cache ∧ w₁.kernel.nextId = w.kernel.nextId ∧ w.calls < w₁.calls ∧
      w₁.kernel.attached = (if moment < w₁.calls then [] else w.kernel.attached) ∧
      commit env id w.kernel.attached (planOf blocks) (planEntry w id).rebuilding w₁ =
        (.ok (), w') := by
  rw [setRules] at h
  obtain ⟨attached, w₁, hq, h₁⟩ := Action.bind_ok_inv h
  have hcalm : env.wiped w.calls = false := by
    rw [← Bool.not_eq_true, hw w.calls (Nat.le_refl _)]
    omega
  obtain ⟨hcalled, hk, ⟨attached', hok, hprogs, htotal, hinacc, hflags⟩ | ⟨e', he, -⟩⟩ :=
    query_inv hcalm (Action.mapErr_ok_inv hq)
  swap
  · cases he
  cases hok
  by_cases hi : 0 < attached.inaccessible
  · rw [if_pos hi] at h₁
    cases h₁
  rw [if_neg hi] at h₁
  rw [hinacc, hprogs] at hi
  obtain ⟨ha, hfilter⟩ := all_accessible hi
  rw [hfilter] at hprogs
  by_cases ht : attached.total = 0
  · rw [if_pos ht] at h₁
    have hempty : w.kernel.attached = [] := List.length_eq_zero_iff.mp (htotal ▸ ht)
    have hentry : planEntry w id = ⟨(w.cache.get id).lineages, true⟩ := by
      rw [planEntry, if_pos hempty]
    rw [rebuild, Action.bind_of_ok (show Action.get w₁ = (.ok w₁, w₁) from rfl)] at h₁
    simp only [hcalled.cache] at h₁
    by_cases hl : (w.cache.get id).lineages = []
    · rw [if_pos hl] at h₁
      cases h₁
    rw [if_neg hl, ← planPass_nil, ← hentry] at h₁
    obtain ⟨plan, w₂, hplan, hcommit⟩ := Action.bind_ok_inv h₁
    obtain ⟨hp, heq⟩ := drawing_inv hplan
    rw [hcalled.drawn] at hp
    obtain ⟨blocks, rfl, hblocks⟩ := planPass_ok hp
    refine ⟨[], blocks, w₂.drawn, w₂, ⟨ha, fun hne => absurd hempty hne, fun _ => hl,
      by rw [hempty]; rfl, hp, hblocks⟩, ?_, ?_, ?_, ?_, ?_⟩
    · rw [heq]; exact hcalled.cache
    · rw [heq]; exact congrArg Kernel.nextId hk
    · rw [heq]; show w.calls < w₁.calls; rw [hcalled.calls]; omega
    · have hnil : w₂.kernel.attached = [] := by
        rw [heq]
        exact (congrArg Kernel.attached hk).trans hempty
      rw [hnil, hempty]
      split <;> rfl
    · rw [hempty, hentry]
      exact hcommit
  · rw [if_neg ht] at h₁
    have hne : w.kernel.attached ≠ [] := fun h => ht (by rw [htotal, h]; rfl)
    have hentry : planEntry w id = w.cache.get id := by rw [planEntry, if_neg hne]
    by_cases hm : attached.attachFlags &&& fAllowMulti = 0
    · rw [if_pos hm] at h₁
      cases h₁
    rw [if_neg hm, hprogs] at h₁
    rw [hflags] at hm
    obtain ⟨progs, w₂, hclass, h₂⟩ := Action.bind_ok_inv h₁
    have hcalls₁ : w₁.calls = w.calls + 1 := hcalled.calls
    obtain ⟨hall, hticked, hid⟩ := classifyFrom_ticked (hw.mono (by omega)) hclass
    rw [Action.bind_of_ok (show Action.get w₂ = (.ok w₂, w₂) from rfl)] at h₂
    simp only [hticked.cache, hcalled.cache, ← hentry] at h₂
    obtain ⟨plan, w₃, hplan, hcommit⟩ := Action.bind_ok_inv h₂
    obtain ⟨hp, heq⟩ := drawing_inv hplan
    rw [hticked.drawn, hcalled.drawn] at hp
    obtain ⟨blocks, rfl, hblocks⟩ := planPass_ok hp
    have hcalls₃ : w₃.calls = w₂.calls := by rw [heq]
    have hnow : w₃.kernel = w₂.kernel := by rw [heq]
    have hcalls₂ := hticked.calls
    refine ⟨progs, blocks, w₃.drawn, w₃,
      ⟨ha, fun _ => hm, fun he => absurd he hne, hall, hp, hblocks⟩,
      ?_, ?_, by omega, ?_, hcommit⟩
    · rw [heq]; exact hticked.cache.trans hcalled.cache
    · rw [hnow, hid, hk]
    · rw [hnow, hticked.attached, hk, hcalls₃, hcalls₂]
      split_ifs <;> first | rfl | omega

/-- What the blocks of a plan do: some take programs away, and then the missing lineages are
attached again. -/
theorem Planned.edits_split (h : Planned env.nonce id rules w progs blocks drawn) :
    ∃ (first : List (Edit Prog)) (news : List Prog),
      edits (partsIn w blocks) = first ++ news.map .attach ∧
      (∀ e ∈ first, ∃ old ∈ e.olds, old ∉ e.news) ∧
      List.Forall₂ (fun lineage prog => prog.Carries sha256 lineage.original.raw)
        (missingOf (planEntry w id) progs) news := by
  have hfits := h.sound.covers.fits
  have hstands := h.stands
  obtain ⟨main, extra, m, rfl, hmain, hextra⟩ := h.split
  have hmembers : ∀ part ∈ main.map Block.part, part.members ≠ [] := by
    intro part hp
    obtain ⟨block, hb, rfl⟩ := List.mem_map.mp hp
    rcases hmain with ⟨-, -, rfl⟩ | ⟨-, gs, bs, hgs, hbs, rfl⟩
    · exact restoreBlocks_members_ne _ _ block hb
    · exact (List.mem_append.mp hb).elim (hgs.members_ne block) (hbs.members_ne block)
  have hattaches : ∀ part ∈ extra.map Block.part, ∃ load, part = .attach load := by
    intro part hp
    obtain ⟨block, hb, rfl⟩ := List.mem_map.mp hp
    obtain ⟨i, hi, rfl⟩ := List.mem_iff_getElem.mp hb
    have hall := List.forall₂_iff_get.mp hextra.attaches
    exact (hall.2 i (by rw [hall.1]; exact hi) hi).2
  have hparts : partsIn w (main ++ extra) =
      realize w.kernel.attached w.kernel.nextId (main.map Block.part) ++
        realize w.kernel.attached (w.kernel.nextId + ((main.map Block.part).flatMap loadsOf).length)
          (extra.map Block.part) := by
    rw [partsIn, List.map_append, realize_append]
  generalize hfirst : realize w.kernel.attached w.kernel.nextId (main.map Block.part) =
    first at hparts
  generalize hlast : realize w.kernel.attached
    (w.kernel.nextId + ((main.map Block.part).flatMap loadsOf).length) (extra.map Block.part) = last
    at hparts
  have hedits : edits (partsIn w (main ++ extra)) =
      edits first ++ (last.map Part.standin).map .attach := by
    rw [hparts, edits_append, ← hlast, edits_attaches hattaches]
  refine ⟨edits first, last.map Part.standin, hedits, fun e he => ?_, ?_⟩
  · rw [← hfirst] at he
    obtain ⟨old, ho⟩ := realize_olds hmembers e he
    rw [hfirst] at he
    refine ⟨old, ho, fun hn => ?_⟩
    have hmem : ∀ (f : Edit Prog → List Prog), old ∈ f e →
        old ∈ (edits (partsIn w (main ++ extra))).flatMap f := fun f hf => by
      rw [hedits]
      exact List.mem_flatMap.mpr ⟨e, List.mem_append_left _ he, hf⟩
    exact hfits.news_fresh old (hmem Edit.news hn) (hfits.olds_mem old (hmem Edit.olds ho))
  · rw [hparts] at hstands
    have hlen : first.length = main.length := by
      rw [← hfirst, realize_length, List.length_map]
    have htail : List.Forall₂ (Stands rules) extra last := by
      have := List.forall₂_drop main.length hstands
      rwa [List.drop_left, ← hlen, List.drop_left] at this
    rw [List.forall₂_map_right_iff]
    have hcarries : List.Forall₂ (fun block part =>
        (Part.standin part).Carries sha256 (Block.lineage block).original.raw) extra last :=
      htail.imp fun _ _ hs => hs.carries
    have hall := List.forall₂_iff_get.mp hextra.attaches
    have hall' := List.forall₂_iff_get.mp hcarries
    refine List.forall₂_iff_get.mpr ⟨hall.1.trans hall'.1, fun i h₁ h₂ => ?_⟩
    have h₃ : i < extra.length := by rw [← hall.1]; exact h₁
    rw [← (hall.2 i h₁ h₃).1]
    exact hall'.2 i h₃ h₂

/-- The missing lineages that are attached again after the wipe, when `later` calls follow it. -/
def survivors (missing : List (CachedLineage sha256)) (later : Nat) : List (CachedLineage sha256) :=
  missing.drop (missing.length - later)

/-- **What a pass leaves that a wipe came into**, when it ends without an error. -/
structure Interrupted (env : Env) (id : Identity) (rules : List DeviceRule) (later : Nat)
    (w w' : World sha256) (progs : List (AttachedProg sha256)) (blocks : List (Block sha256)) :
    Prop where
  attached : List.Forall₂ (fun lineage prog => prog.Carries sha256 lineage.original.raw)
    (survivors (missingOf (planEntry w id) progs) later) w'.kernel.attached
  cache : w'.cache = w.cache.set id ⟨blocks.map Block.lineage, false⟩
  /-- Without an attach after the wipe, the plan has nothing to do. -/
  idle : missingOf (planEntry w id) progs = [] → edits (partsIn w blocks) = []

theorem setRules_wiped (hw : env.WipedAt w.calls moment) (hfirst : w.calls < moment)
    (h : setRules env id rules w = (.ok (), w')) {later : Nat} (hlater : moment + later = w'.calls)
    (hduring : 0 < later) :
    ∃ progs blocks drawn, Planned env.nonce id rules w progs blocks drawn ∧
      Interrupted env id rules later w w' progs blocks := by
  obtain ⟨progs, blocks, drawn, w₁, hplan, hcache, hid, hcalls, hnow, hcommit⟩ :=
    setRules_ok_inv hw hfirst h
  obtain ⟨w₄, hexecute, hkernel, hcalls₄, hcache₄⟩ := commit_ok_inv hcommit
  rw [hcache] at hcache₄
  rw [execute, planOf_zip] at hexecute
  obtain ⟨loaded, w₂, hload, hsteps⟩ := Action.bind_ok_inv hexecute
  generalize hrecord : w₁.record id ⟨blocks.map Block.lineage, (planEntry w id).rebuilding⟩
    .commit = w₀
    at hload
  have hcalls₀ : w₀.calls = w₁.calls := by rw [← hrecord]; rfl
  have hnow₀ : w₀.kernel = w₁.kernel := by rw [← hrecord]; rfl
  have hcache₀ : w₀.cache = w.cache.set id
      ⟨blocks.map Block.lineage, (planEntry w id).rebuilding⟩ := by
    rw [← hrecord, ← hcache]; rfl
  have hw₀ : env.WipedAt w₀.calls moment := hw.mono (by omega)
  obtain ⟨rfl, hticked, -⟩ := loadAll_ticked hw₀ hplan.sound.canonical hload
  rw [hnow₀, hid] at hsteps
  have hcalls₂ := hticked.calls
  have hw₂ : env.WipedAt w₂.calls moment := hw.mono (by omega)
  obtain ⟨first, news, hedits, holds, hcarries⟩ := hplan.edits_split
  have hperformed := executeFrom_performed (hplan.sound.steps w.kernel.nextId) hsteps
  change Performed env w₂ (edits (partsIn w blocks)) w₄ at hperformed
  rw [hedits] at hperformed
  obtain ⟨w₃, hp₃, hp₄⟩ := hperformed.append_inv
  obtain ⟨hcalm, hstepped, hnone⟩ := hp₃.calm hw₂ holds
  obtain ⟨hcache', hcalls', hafter⟩ := hp₄.attached (hw₂.mono hstepped.calls)
  have hloaded : w₂.kernel.attached = if moment < w₂.calls then [] else w.kernel.attached := by
    rw [hticked.attached, hnow₀, hnow, hcalls₂]
    split_ifs <;> first | rfl | omega
  have hlen : (missingOf (planEntry w id) progs).length = news.length := hcarries.length_eq
  -- A wipe before the last steps leaves nothing to be taken away.
  have hearly : moment < w₃.calls → first = [] ∧ w₃ = w₂ ∧ w₂.kernel.attached = [] := by
    intro hm
    have hm₂ : moment < w₂.calls := by omega
    rw [if_pos hm₂] at hloaded
    have hnil := hnone hloaded
    subst hnil
    cases hp₃
    exact ⟨rfl, rfl, hloaded⟩
  refine ⟨progs, blocks, drawn, hplan, ?_, ?_, ?_⟩
  · unfold survivors
    rw [hkernel, hafter, hlen]
    by_cases hm : moment < w₃.calls
    · obtain ⟨-, heq, hnil⟩ := hearly hm
      rw [if_neg (by omega), heq, hnil, show news.length - later = 0 by omega]
      exact hcarries
    · rw [if_pos (by omega), show news.length - later = moment - w₃.calls by omega]
      exact List.forall₂_drop _ hcarries
  · refine hcache₄ ?_
    rw [hcache', hstepped.cache, hticked.cache, hcache₀]
  · intro hmissing
    rw [hmissing] at hcarries
    cases hcarries
    rw [hedits, (hearly (by rw [List.length_nil] at hcalls'; omega)).1]
    rfl

end Pass
end V2
end Sda
