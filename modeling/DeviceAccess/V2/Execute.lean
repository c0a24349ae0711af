import DeviceAccess.V2.Calls

/-!
# What executing a plan does

Every step of `execute` is an edit of the list of attached programs (`Handover.Edit`). Whatever
calls fail, the lists met on the way are those `Handover.Reached` describes (`perform_inv` for a
step, `executeFrom_inv` for all of them); a run that ends without an error has made every edit; and
when no call fails by itself there is no error.
-/

namespace Sda
namespace V2

open Asm Sda.Filter Handover

variable {sha256 : Bytes → Vector Byte 32} {env : Env}

/-- The edits were worked on from `w` to `w'`. -/
structure Progress (start : List Prog) (edits : List (Edit Prog)) (w w' : World sha256) : Prop where
  trail : Trail (fun event now => event.changes = true ∧ Reached start edits now) w w'
  keeps : w.kernel.Keeps w'.kernel
  now : Reached start edits w'.kernel.attached

namespace Progress

variable {start : List Prog} {edits : List (Edit Prog)} {w w₁ w' : World sha256}

theorem refl (h : Reached start edits w.kernel.attached) : Progress start edits w w :=
  ⟨.refl _ w, .refl _, h⟩

theorem trans (h : Progress start edits w w₁) (h' : Progress start edits w₁ w') :
    Progress start edits w w' :=
  ⟨h.trail.trans h'.trail, h.keeps.trans h'.keeps, h'.now⟩

theorem of_called {event : Event} (h : Called event w w') (he : event.changes = true)
    (hk : w.kernel.Keeps w'.kernel) (hr : Reached start edits w'.kernel.attached) :
    Progress start edits w w' :=
  ⟨h.trail ⟨he, hr⟩, hk, hr⟩

private theorem setReplace (h : Progress start edits w w') (probe : ReplaceProbe) :
    Progress start edits w { w' with replace := probe } :=
  ⟨⟨h.trail.cache, h.trail.drawn, h.trail.calls, h.trail.log⟩,
    ⟨h.keeps.nextId, h.keeps.multi⟩, h.now⟩

end Progress

/-! ## Steps -/

section Steps

variable {start : List Prog} {done rest : List (Edit Prog)} {w w' : World sha256}

/-- What a step is to do: the list is where the edits `done` left it, and what is new is loaded. -/
structure Ready (start : List Prog) (done : List (Edit Prog)) (e : Edit Prog)
    (rest : List (Edit Prog)) (w : World sha256) : Prop where
  fits : Fits start (done ++ e :: rest)
  now : w.kernel.attached.Perm (settled start done)
  loaded : ∀ prog ∈ e.news, prog.id < w.kernel.nextId

theorem Ready.reached {e : Edit Prog} (h : Ready start done e rest w) :
    Reached start (done ++ e :: rest) w.kernel.attached :=
  ⟨done, e :: rest, rfl, .inl h.now⟩

theorem reached_after {e : Edit Prog} {now : List Prog}
    (h : now.Perm (settled start (done ++ [e]))) : Reached start (done ++ e :: rest) now :=
  ⟨done ++ [e], rest, by rw [List.append_assoc]; rfl, .inl h⟩

theorem swapByDetach_inv {old new : Prog} {r : Except Error Unit}
    (hc : env.CalmFrom w.calls) (hr : Ready start done (.pair old new) rest w)
    (h : swapByDetach env old new w = (r, w')) :
    Progress start (done ++ .pair old new :: rest) w w' ∧
      (r = .ok () → w'.kernel.attached.Perm (settled start (done ++ [.pair old new]))) ∧
      (env.FaultlessFrom w.calls → r = .ok ()) := by
  obtain ⟨hold, hnew, hafter⟩ := hr.fits.pair hr.now
  have hid := hr.loaded new List.mem_cons_self
  have hstay := hr.reached
  rcases Action.bind_inv h with ⟨e, ha, rfl⟩ | ⟨u, w₁, ha, h⟩
  · -- The attach failed.
    obtain ⟨e', ha, -⟩ | ⟨u, -, hu⟩ := Action.mapErr_inv ha
    · obtain ⟨hcalled, hk, ⟨hok, -⟩ | ⟨e, he, hnow, hcause⟩⟩ := attach_inv (hc _ (Nat.le_refl _)) ha
      · cases hok
      · refine ⟨.of_called hcalled rfl hk (hnow ▸ hstay), nofun, fun hf => ?_⟩
        rw [hf _ (Nat.le_refl _)] at hcause
        exact absurd hcause (by simp [hid, hnew])
    · cases hu
  · obtain ⟨e', -, he'⟩ | ⟨u, ha, -⟩ := Action.mapErr_inv ha
    · cases he'
    obtain ⟨hcalled, hk, ⟨-, hnow⟩ | ⟨e, he, -⟩⟩ := attach_inv (hc _ (Nat.le_refl _)) ha
    swap
    · cases he
    have hboth : Reached start (done ++ .pair old new :: rest) w₁.kernel.attached :=
      ⟨done, _, rfl, .inr ⟨old, new, rest, rfl, hnow ▸ hr.now.append_right [new]⟩⟩
    have hp₁ : Progress start (done ++ .pair old new :: rest) w w₁ :=
      .of_called hcalled rfl hk hboth
    have hle : w.calls ≤ w₁.calls := hp₁.trail.calls
    cases hd : detach env old w₁ with
    | mk r₂ w₂ =>
      rw [Action.bind_of_ok (Action.attempt_eq hd)] at h
      obtain ⟨hcalled₂, hk₂, ⟨rfl, -, hnow₂⟩ | ⟨e, rfl, hnow₂, hcause₂⟩⟩ := detach_inv (hc _ hle) hd
      · -- The old program is gone.
        have hperm : w₂.kernel.attached.Perm (settled start (done ++ [.pair old new])) := by
          rw [hnow₂, hnow, List.erase_append_left _ hold]
          exact (List.perm_append_singleton _ _).trans hafter
        cases h
        exact ⟨hp₁.trans (.of_called hcalled₂ rfl hk₂ (reached_after hperm)), fun _ => hperm,
          fun _ => rfl⟩
      · -- It is not, and the new one is detached again.
        have hp₂ := hp₁.trans (.of_called hcalled₂ rfl hk₂ (hnow₂ ▸ hboth))
        have hno : ¬ env.FaultlessFrom w.calls := fun hf => by
          rw [hf _ hle, hnow] at hcause₂
          exact absurd hcause₂ (by simp [hold])
        cases hd₃ : detach env new w₂ with
        | mk r₃ w₃ =>
          simp only at h
          rw [Action.bind_of_ok (Action.attempt_eq hd₃)] at h
          obtain ⟨hcalled₃, hk₃, ⟨rfl, -, hnow₃⟩ | ⟨e₃, rfl, hnow₃, -⟩⟩ :=
            detach_inv (hc _ hp₂.trail.calls) hd₃
          · have hback : w₃.kernel.attached = w.kernel.attached := by
              rw [hnow₃, hnow₂, hnow, List.erase_append_right _ hnew, List.erase_cons_head,
                List.append_nil]
            cases h
            exact ⟨hp₂.trans (.of_called hcalled₃ rfl hk₃ (hback ▸ hstay)), nofun,
              fun hf => absurd hf hno⟩
          · cases h
            exact ⟨hp₂.trans (.of_called hcalled₃ rfl hk₃ (hnow₃ ▸ hnow₂ ▸ hboth)), nofun,
              fun hf => absurd hf hno⟩

theorem swap_inv {old new : Prog} {r : Except Error Unit} (hc : env.CalmFrom w.calls)
    (hr : Ready start done (.pair old new) rest w) (h : V2.swap env old new w = (r, w')) :
    Progress start (done ++ .pair old new :: rest) w w' ∧
      (r = .ok () → w'.kernel.attached.Perm (settled start (done ++ [.pair old new]))) ∧
      (env.FaultlessFrom w.calls → r = .ok ()) := by
  obtain ⟨hold, hnew, hafter⟩ := hr.fits.pair hr.now
  have hid := hr.loaded new List.mem_cons_self
  have hget : (Action.get : Action (World sha256) Error _) w = (.ok w, w) := rfl
  rw [V2.swap, Action.bind_of_ok hget] at h
  by_cases husable : w.replace.usable = true
  swap
  · rw [if_neg husable] at h
    exact swapByDetach_inv hc hr h
  rw [if_pos husable] at h
  cases ha : attach env new fAllowMulti (some old) w with
  | mk r₁ w₁ =>
    rw [Action.bind_of_ok (Action.attempt_eq ha)] at h
    rw [Action.bind_of_ok (show (Action.modify _ : Action (World sha256) Error Unit) w₁ =
      (.ok (), { w₁ with replace := w₁.replace.record r₁ }) from rfl)] at h
    obtain ⟨hcalled, hk, ⟨rfl, -, hnow⟩ | ⟨e, rfl, hnow, hcause⟩⟩ :=
      replace_inv (hc _ (Nat.le_refl _)) ha
    · have hperm : w₁.kernel.attached.Perm (settled start (done ++ [.pair old new])) := by
        rw [hnow]
        exact (replace_perm hold).trans hafter
      cases h
      exact ⟨(Progress.of_called hcalled rfl hk (reached_after hperm)).setReplace _, fun _ => hperm,
        fun _ => rfl⟩
    · have hp : Progress start (done ++ .pair old new :: rest) w w₁ :=
        .of_called hcalled rfl hk (hnow ▸ hr.reached)
      have hno : ¬ env.FaultlessFrom w.calls := fun hf => by
        rw [hf _ (Nat.le_refl _)] at hcause
        exact absurd hcause (by simp [hid, hold, hnew])
      simp only at h
      rw [Action.bind_of_ok (show (Action.get : Action (World sha256) Error _) _ = (.ok _, _)
        from rfl)] at h
      split at h
      · cases h
        exact ⟨hp.setReplace _, nofun, fun hf => absurd hf hno⟩
      · have hr₁ : Ready start done (.pair old new) rest
            { w₁ with replace := w₁.replace.record (.error e) } :=
          ⟨hr.fits, hnow ▸ hr.now, fun prog hm => hk.nextId ▸ hr.loaded prog hm⟩
        have hc₁ : env.CalmFrom ({ w₁ with replace := w₁.replace.record (.error e) } :
            World sha256).calls := hc.mono hp.trail.calls
        obtain ⟨hp', hok, -⟩ := swapByDetach_inv hc₁ hr₁ h
        exact ⟨(hp.setReplace _).trans hp', hok, fun hf => absurd hf hno⟩

/-- **One step.** -/
theorem perform_inv {e : Edit Prog} {r : Except Error Unit} (hc : env.CalmFrom w.calls)
    (hr : Ready start done e rest w) (h : perform env e w = (r, w')) :
    Progress start (done ++ e :: rest) w w' ∧
      (r = .ok () → w'.kernel.attached.Perm (settled start (done ++ [e]))) ∧
      (env.FaultlessFrom w.calls → r = .ok ()) := by
  cases e with
  | attach new =>
    obtain ⟨hnew, hafter⟩ := hr.fits.attach hr.now
    have hid := hr.loaded new List.mem_cons_self
    obtain ⟨e, ha, rfl⟩ | ⟨u, ha, rfl⟩ := Action.mapErr_inv h
    · obtain ⟨hcalled, hk, ⟨hok, -⟩ | ⟨e', -, hnow, hcause⟩⟩ := attach_inv (hc _ (Nat.le_refl _)) ha
      · cases hok
      · refine ⟨.of_called hcalled rfl hk (hnow ▸ hr.reached), nofun, fun hf => ?_⟩
        rw [hf _ (Nat.le_refl _)] at hcause
        exact absurd hcause (by simp [hid, hnew])
    · obtain ⟨hcalled, hk, ⟨-, hnow⟩ | ⟨e', he, -⟩⟩ := attach_inv (hc _ (Nat.le_refl _)) ha
      · rw [← hnow] at hafter
        exact ⟨.of_called hcalled rfl hk (reached_after hafter), fun _ => hafter, fun _ => rfl⟩
      · cases he
  | detach old =>
    obtain ⟨hold, hafter⟩ := hr.fits.detach hr.now
    obtain ⟨e, ha, rfl⟩ | ⟨u, ha, rfl⟩ := Action.mapErr_inv h
    · obtain ⟨hcalled, hk, ⟨hok, -⟩ | ⟨e', -, hnow, hcause⟩⟩ := detach_inv (hc _ (Nat.le_refl _)) ha
      · cases hok
      · refine ⟨.of_called hcalled rfl hk (hnow ▸ hr.reached), nofun, fun hf => ?_⟩
        rw [hf _ (Nat.le_refl _)] at hcause
        exact absurd hcause (by simp [hold])
    · obtain ⟨hcalled, hk, ⟨-, -, hnow⟩ | ⟨e', he, -⟩⟩ := detach_inv (hc _ (Nat.le_refl _)) ha
      · rw [← hnow] at hafter
        exact ⟨.of_called hcalled rfl hk (reached_after hafter), fun _ => hafter, fun _ => rfl⟩
      · cases he
  | pair old new => exact swap_inv hc hr h

/-- **All steps.** -/
theorem executeFrom_inv {attached loaded : List Prog} {steps : Nat} {plan : List Step}
    {todo : List (Edit Prog)} {r : Except Error Unit}
    (hplan : List.Forall₂ (fun step e => step.edit attached loaded = some e) plan todo)
    (hc : env.CalmFrom w.calls) (hfits : Fits start (done ++ todo))
    (hnow : w.kernel.attached.Perm (settled start done))
    (hloaded : ∀ prog ∈ news todo, prog.id < w.kernel.nextId) {index : Nat}
    (h : executeFrom env attached loaded steps index plan w = (r, w')) :
    Progress start (done ++ todo) w w' ∧
      (r = .ok () → w'.kernel.attached.Perm (settled start (done ++ todo))) ∧
      (env.FaultlessFrom w.calls → r = .ok ()) := by
  induction hplan generalizing done w index with
  | nil =>
    cases h
    rw [List.append_nil] at hfits ⊢
    exact ⟨.refl ⟨done, [], (List.append_nil _).symm, .inl hnow⟩, fun _ => hnow, fun _ => rfl⟩
  | @cons step e plan todo hstep _ ih =>
    have hr : Ready start done e todo w :=
      ⟨hfits, hnow, fun prog hm =>
        hloaded prog (by rw [news_cons]; exact List.mem_append_left _ hm)⟩
    rw [executeFrom] at h
    simp only [hstep] at h
    rcases Action.bind_inv h with ⟨err, hstop, rfl⟩ | ⟨u, w₁, hgo, h⟩
    · obtain ⟨cause, hperform, -⟩ | ⟨u, -, hu⟩ := Action.mapErr_inv hstop
      · obtain ⟨hp, -, hok⟩ := perform_inv hc hr hperform
        exact ⟨hp, nofun, fun hf => nomatch hok hf⟩
      · cases hu
    · obtain ⟨cause, -, hu⟩ | ⟨u, hperform, -⟩ := Action.mapErr_inv hgo
      · cases hu
      obtain ⟨hp, hperm, -⟩ := perform_inv hc hr hperform
      have happ : done ++ e :: todo = done ++ [e] ++ todo := by simp
      rw [happ] at hfits hp ⊢
      have hrest : ∀ prog ∈ news todo, prog.id < w₁.kernel.nextId := fun prog hm => by
        rw [hp.keeps.nextId]
        exact hloaded prog (by rw [news_cons]; exact List.mem_append_right _ hm)
      obtain ⟨hp', hperm', hok'⟩ :=
        ih (hc.mono hp.trail.calls) hfits (hperm rfl) hrest h
      exact ⟨hp.trans hp', hperm', fun hf => hok' (hf.mono hp.trail.calls)⟩

end Steps

/-! ## Loads -/

/-- The programs the loads `raws` make, from identity `id` on. -/
def newProgs (id : Nat) : List Bytes → List Prog
  | [] => []
  | raw :: raws => newProg id raw :: newProgs (id + 1) raws

theorem loadAll_inv {loads : List (Bytes × String)} {r : Except Error (List Prog)}
    {w w' : World sha256} (hc : env.CalmFrom w.calls)
    (hloads : ∀ load ∈ loads, CanonicalProgram load.1) (h : loadAll env loads w = (r, w')) :
    Trail (fun event now => event.changes = true ∧ now = w.kernel.attached) w w' ∧
      w'.kernel.attached = w.kernel.attached ∧ w'.kernel.attachFlags = w.kernel.attachFlags ∧
      ((r = .ok (newProgs w.kernel.nextId (loads.map Prod.fst)) ∧
          w'.kernel.nextId = w.kernel.nextId + loads.length ∧
          ∀ load ∈ loads, insnCnt load.1 ≤ env.insnLimit) ∨
        ∃ e, r = .error e ∧ (env.FaultlessFrom w.calls →
          ∃ load ∈ loads, env.insnLimit < insnCnt load.1)) := by
  induction loads generalizing w w' r with
  | nil =>
    cases h
    exact ⟨.refl _ _, rfl, rfl, .inl ⟨rfl, rfl, nofun⟩⟩
  | cons load loads ih =>
    obtain ⟨raw, name⟩ := load
    have hraw := hloads (raw, name) List.mem_cons_self
    rw [loadAll] at h
    rcases Action.bind_inv h with ⟨e, hone, rfl⟩ | ⟨prog, w₁, hone, h⟩
    · obtain ⟨hcalled, hnow, hflags, ⟨hok, -⟩ | ⟨e', -, -, hcause⟩⟩ :=
        loadCanonical_inv (hc _ (Nat.le_refl _)) hraw hone
      · cases hok
      · refine ⟨hcalled.trail ⟨rfl, hnow⟩, hnow, hflags, .inr ⟨e, rfl, fun hf => ?_⟩⟩
        rw [hf _ (Nat.le_refl _)] at hcause
        exact ⟨_, List.mem_cons_self, hcause.resolve_left nofun⟩
    · obtain ⟨hcalled, hnow, hflags, ⟨hok, hid, hlim⟩ | ⟨e', he, -⟩⟩ :=
        loadCanonical_inv (hc _ (Nat.le_refl _)) hraw hone
      swap
      · cases he
      cases hok
      have ht : Trail (fun event now => event.changes = true ∧ now = w.kernel.attached) w w₁ :=
        hcalled.trail ⟨rfl, hnow⟩
      have hmore := fun load hm => hloads load (List.mem_cons_of_mem _ hm)
      rcases Action.bind_inv h with ⟨e, hrest, rfl⟩ | ⟨progs, w₂, hrest, h⟩
      · obtain ⟨ht', hnow', hflags', ⟨hok, -⟩ | ⟨e', -, hcause⟩⟩ :=
          ih (hc.mono ht.calls) hmore hrest
        · cases hok
        · rw [hnow] at ht' hnow'
          refine ⟨ht.trans ht', hnow', hflags'.trans hflags, .inr ⟨e, rfl, fun hf => ?_⟩⟩
          obtain ⟨load, hm, hlt⟩ := hcause (hf.mono ht.calls)
          exact ⟨load, List.mem_cons_of_mem _ hm, hlt⟩
      · obtain ⟨ht', hnow', hflags', ⟨hok, hid', hlim'⟩ | ⟨e', he, -⟩⟩ :=
          ih (hc.mono ht.calls) hmore hrest
        swap
        · cases he
        cases hok
        cases h
        rw [hnow] at ht' hnow'
        refine ⟨ht.trans ht', hnow', hflags'.trans hflags, .inl ⟨?_, ?_, ?_⟩⟩
        · rw [hid]; rfl
        · rw [hid', hid, List.length_cons]; omega
        · intro load hm
          rcases List.mem_cons.mp hm with rfl | hm
          · exact hlim
          · exact hlim' load hm

end V2
end Sda
