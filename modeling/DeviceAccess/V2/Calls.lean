import DeviceAccess.V2.Controller

/-!
# What one kernel call does

`call_inv` says once what a kernel call can do when no wipe comes before it; the inversions of the
single operations follow from it. `Trail P w w'` is what a sequence of calls leaves behind: the
cache as it was, and a log that grew by points at which `P` holds of the event and of the attached
programs.
-/

namespace Sda
namespace V2

open Asm Sda.Filter

variable {sha256 : Bytes → Vector Byte 32}

/-- No wipe comes before call `n` or a later one. -/
def Env.CalmFrom (env : Env) (n : Nat) : Prop := ∀ m, n ≤ m → env.wiped m = false

/-- Call `n` and the later ones do not fail by themselves. -/
def Env.FaultlessFrom (env : Env) (n : Nat) : Prop := ∀ m, n ≤ m → env.fault m = none

theorem Env.CalmFrom.mono {env : Env} {n m : Nat} (h : env.CalmFrom n) (hm : n ≤ m) :
    env.CalmFrom m := fun k hk => h k (Nat.le_trans hm hk)

theorem Env.FaultlessFrom.mono {env : Env} {n m : Nat} (h : env.FaultlessFrom n) (hm : n ≤ m) :
    env.FaultlessFrom m := fun k hk => h k (Nat.le_trans hm hk)

/-! ## Trails -/

/-- The log grew by points at which `P` holds. -/
def Logged (P : Point sha256 → Prop) (w w' : World sha256) : Prop :=
  ∃ points, w'.log = w.log ++ points ∧ ∀ point ∈ points, P point

namespace Logged

variable {P Q : Point sha256 → Prop} {w w₁ w' : World sha256}

theorem refl (P : Point sha256 → Prop) (w : World sha256) : Logged P w w :=
  ⟨[], (List.append_nil _).symm, fun _ h => nomatch h⟩

theorem trans (h : Logged P w w₁) (h' : Logged P w₁ w') : Logged P w w' := by
  obtain ⟨points, hlog, hpoints⟩ := h
  obtain ⟨points', hlog', hpoints'⟩ := h'
  refine ⟨points ++ points', by rw [hlog', hlog, List.append_assoc], fun point hp => ?_⟩
  exact (List.mem_append.mp hp).elim (hpoints point) (hpoints' point)

theorem mono (h : Logged P w w') (himp : ∀ point, P point → Q point) : Logged Q w w' := by
  obtain ⟨points, hlog, hpoints⟩ := h
  exact ⟨points, hlog, fun point hp => himp point (hpoints point hp)⟩

theorem and (h : Logged P w w') (h' : Logged Q w w') :
    Logged (fun point => P point ∧ Q point) w w' := by
  obtain ⟨points, hlog, hpoints⟩ := h
  obtain ⟨points', hlog', hpoints'⟩ := h'
  rw [hlog, List.append_cancel_left_eq] at hlog'
  subst hlog'
  exact ⟨points, hlog, fun point hp => ⟨hpoints point hp, hpoints' point hp⟩⟩

/-- The points themselves, once they are known. -/
theorem of_log (h : Logged P w w') {points : List (Point sha256)}
    (hlog : w'.log = w.log ++ points) :
    ∀ point ∈ points, P point := by
  obtain ⟨points', hlog', hpoints⟩ := h
  rw [hlog, List.append_cancel_left_eq] at hlog'
  exact hlog' ▸ hpoints

theorem of_point {point : Point sha256} (h : w'.log = w.log ++ [point]) (hP : P point) :
    Logged P w w' :=
  ⟨[point], h, fun _ hp => List.mem_singleton.mp hp ▸ hP⟩

end Logged

/-- What a sequence of kernel calls leaves behind. -/
structure Trail (P : Event → List Prog → Prop) (w w' : World sha256) : Prop where
  cache : w'.cache = w.cache
  drawn : w'.drawn = w.drawn
  calls : w.calls ≤ w'.calls
  log : Logged (fun point => P point.event point.attached ∧ point.cache = w.cache) w w'

namespace Trail

variable {P Q : Event → List Prog → Prop} {w w₁ w' : World sha256}

theorem refl (P : Event → List Prog → Prop) (w : World sha256) : Trail P w w :=
  ⟨rfl, rfl, Nat.le_refl _, .refl _ w⟩

theorem trans (h : Trail P w w₁) (h' : Trail P w₁ w') : Trail P w w' :=
  ⟨h'.cache.trans h.cache, h'.drawn.trans h.drawn, Nat.le_trans h.calls h'.calls,
    h.log.trans (h'.log.mono fun _ hp => ⟨hp.1, hp.2.trans h.cache⟩)⟩

theorem mono (h : Trail P w w') (himp : ∀ event attached, P event attached → Q event attached) :
    Trail Q w w' :=
  ⟨h.cache, h.drawn, h.calls, h.log.mono fun _ hp => ⟨himp _ _ hp.1, hp.2⟩⟩

end Trail

/-! ## One call -/

/-- The call `event` was made; only the kernel may have changed. -/
structure Called (event : Event) (w w' : World sha256) : Prop where
  cache : w'.cache = w.cache
  drawn : w'.drawn = w.drawn
  replace : w'.replace = w.replace
  calls : w'.calls = w.calls + 1
  log : w'.log = w.log ++ [⟨event, w'.kernel.attached, w.cache⟩]

theorem Called.trail {P : Event → List Prog → Prop} {event : Event} {w w' : World sha256}
    (h : Called event w w') (hP : P event w'.kernel.attached) : Trail P w w' :=
  ⟨h.cache, h.drawn, by rw [h.calls]; exact Nat.le_succ _, .of_point h.log ⟨hP, rfl⟩⟩

section Call

variable {env : Env} {w w' : World sha256}

theorem call_inv {α : Type} {event : Event} {effect : Kernel → Except OpsError (α × Kernel)}
    {r : Except OpsError α} (hc : env.wiped w.calls = false)
    (h : call env event effect w = (r, w')) :
    Called event w w' ∧
      ((∃ e, r = .error e ∧ w'.kernel = w.kernel ∧
          (env.fault w.calls = some e ∨ effect w.kernel = .error e)) ∨
        ∃ v, r = .ok v ∧ effect w.kernel = .ok (v, w'.kernel)) := by
  simp only [call, hc, Bool.false_eq_true, if_false] at h
  split at h
  · rename_i e hf
    cases h
    exact ⟨⟨rfl, rfl, rfl, rfl, rfl⟩, .inl ⟨e, rfl, rfl, .inl hf⟩⟩
  · split at h
    · rename_i e he
      cases h
      exact ⟨⟨rfl, rfl, rfl, rfl, rfl⟩, .inl ⟨e, rfl, rfl, .inr he⟩⟩
    · rename_i v kernel hk
      cases h
      exact ⟨⟨rfl, rfl, rfl, rfl, rfl⟩, .inr ⟨v, rfl, hk⟩⟩

theorem mapError_map_ok {α ε ε' : Type} {x : Except ε α} {f : ε → ε'} {v : Unit × α}
    (h : (x.mapError f).map ((), ·) = .ok v) : x = .ok v.2 := by
  cases x with
  | error e => cases h
  | ok a => cases h; rfl

theorem mapError_map_error {α ε ε' : Type} {x : Except ε α} {f : ε → ε'} {e : ε'}
    (h : (x.mapError f).map (Prod.mk ()) = .error e) : ∃ cause, x = .error cause := by
  cases x with
  | error cause => exact ⟨cause, rfl⟩
  | ok a => cases h

theorem Kernel.attach_ok {kernel kernel' : Kernel} {prog : Prog} {flags : BitVec 32}
    (h : kernel.attach prog flags = .ok kernel') :
    kernel'.attached = kernel.attached ++ [prog] ∧ kernel'.nextId = kernel.nextId ∧
      kernel'.attachFlags = if kernel.attached = [] then flags else kernel.attachFlags := by
  unfold Kernel.attach at h
  split at h
  · split at h
    · cases h
    · cases h; exact ⟨rfl, rfl, rfl⟩
  · cases h

theorem Kernel.attach_error {kernel : Kernel} {prog : Prog} {flags : BitVec 32} {errno : Errno}
    (h : kernel.attach prog flags = .error errno) :
    ¬ prog.id < kernel.nextId ∨ prog ∈ kernel.attached := by
  unfold Kernel.attach at h
  split at h
  · split at h
    · rename_i hmem; exact .inr hmem
    · cases h
  · rename_i hid; exact .inl hid

theorem Kernel.replace_ok {kernel kernel' : Kernel} {old prog : Prog}
    (h : kernel.replace old prog = .ok kernel') :
    old ∈ kernel.attached ∧ kernel'.attached = kernel.attached.replace old prog ∧
      kernel'.nextId = kernel.nextId ∧ kernel'.attachFlags = kernel.attachFlags := by
  unfold Kernel.replace at h
  split at h
  · split at h
    · rename_i hold
      split at h
      · cases h
      · cases h; exact ⟨hold, rfl, rfl, rfl⟩
    · cases h
  · cases h

theorem Kernel.replace_error {kernel : Kernel} {old prog : Prog} {errno : Errno}
    (h : kernel.replace old prog = .error errno) :
    ¬ prog.id < kernel.nextId ∨ old ∉ kernel.attached ∨ prog ∈ kernel.attached := by
  unfold Kernel.replace at h
  split at h
  · split at h
    · split at h
      · rename_i hmem; exact .inr (.inr hmem)
      · cases h
    · rename_i hold; exact .inr (.inl hold)
  · rename_i hid; exact .inl hid

theorem Kernel.detach_ok {kernel kernel' : Kernel} {prog : Prog}
    (h : kernel.detach prog = .ok kernel') :
    prog ∈ kernel.attached ∧ kernel'.attached = kernel.attached.erase prog ∧
      kernel'.nextId = kernel.nextId ∧ kernel'.attachFlags = kernel.attachFlags := by
  unfold Kernel.detach at h
  split at h
  · rename_i hmem; cases h; exact ⟨hmem, rfl, rfl, rfl⟩
  · cases h

theorem Kernel.detach_error {kernel : Kernel} {prog : Prog} {errno : Errno}
    (h : kernel.detach prog = .error errno) : prog ∉ kernel.attached := by
  unfold Kernel.detach at h
  split at h
  · cases h
  · assumption

/-- A cgroup with programs has them attached with `BPF_F_ALLOW_MULTI`. -/
def Kernel.Multi (kernel : Kernel) : Prop :=
  kernel.attached ≠ [] → kernel.attachFlags &&& fAllowMulti ≠ 0

/-- Nothing was loaded, and the attach mode is still the right one. -/
structure Kernel.Keeps (kernel kernel' : Kernel) : Prop where
  nextId : kernel'.nextId = kernel.nextId
  multi : kernel.Multi → kernel'.Multi

theorem Kernel.Keeps.refl (kernel : Kernel) : kernel.Keeps kernel := ⟨rfl, id⟩

theorem Kernel.Keeps.trans {k k₁ k' : Kernel} (h : k.Keeps k₁) (h' : k₁.Keeps k') : k.Keeps k' :=
  ⟨h'.nextId.trans h.nextId, fun hm => h'.multi (h.multi hm)⟩

theorem attach_inv {prog : Prog} {r : Except OpsError Unit} (hc : env.wiped w.calls = false)
    (h : attach env prog fAllowMulti none w = (r, w')) :
    Called (.attach prog) w w' ∧ w.kernel.Keeps w'.kernel ∧
      ((r = .ok () ∧ w'.kernel.attached = w.kernel.attached ++ [prog]) ∨
        ∃ e, r = .error e ∧ w'.kernel.attached = w.kernel.attached ∧
          (env.fault w.calls = some e ∨ ¬ prog.id < w.kernel.nextId ∨
            prog ∈ w.kernel.attached)) := by
  unfold attach at h
  obtain ⟨hcalled, ⟨e, rfl, hk, he⟩ | ⟨v, rfl, hk⟩⟩ := call_inv hc h
  · refine ⟨hcalled, hk ▸ .refl _, .inr ⟨e, rfl, by rw [hk], he.imp_right fun he => ?_⟩⟩
    obtain ⟨errno, he⟩ := mapError_map_error he
    exact Kernel.attach_error he
  · obtain ⟨ha, hid, hflags⟩ := Kernel.attach_ok (mapError_map_ok hk)
    refine ⟨hcalled, ⟨hid, fun hm _ => ?_⟩, .inl ⟨rfl, ha⟩⟩
    rw [hflags]
    split
    · decide
    · rename_i hne; exact hm hne

theorem replace_inv {old prog : Prog} {r : Except OpsError Unit} (hc : env.wiped w.calls = false)
    (h : attach env prog fAllowMulti (some old) w = (r, w')) :
    Called (.replace old prog) w w' ∧ w.kernel.Keeps w'.kernel ∧
      ((r = .ok () ∧ old ∈ w.kernel.attached ∧
          w'.kernel.attached = w.kernel.attached.replace old prog) ∨
        ∃ e, r = .error e ∧ w'.kernel.attached = w.kernel.attached ∧
          (env.fault w.calls = some e ∨ ¬ prog.id < w.kernel.nextId ∨ old ∉ w.kernel.attached ∨
            prog ∈ w.kernel.attached)) := by
  unfold attach at h
  obtain ⟨hcalled, ⟨e, rfl, hk, he⟩ | ⟨v, rfl, hk⟩⟩ := call_inv hc h
  · refine ⟨hcalled, hk ▸ .refl _, .inr ⟨e, rfl, by rw [hk], he.imp_right fun he => ?_⟩⟩
    obtain ⟨errno, he⟩ := mapError_map_error he
    exact Kernel.replace_error he
  · obtain ⟨hold, ha, hid, hflags⟩ := Kernel.replace_ok (mapError_map_ok hk)
    refine ⟨hcalled, ⟨hid, fun hm _ => ?_⟩, .inl ⟨rfl, hold, ha⟩⟩
    rw [hflags]
    exact hm (List.ne_nil_of_mem hold)

theorem detach_inv {prog : Prog} {r : Except OpsError Unit} (hc : env.wiped w.calls = false)
    (h : detach env prog w = (r, w')) :
    Called (.detach prog) w w' ∧ w.kernel.Keeps w'.kernel ∧
      ((r = .ok () ∧ prog ∈ w.kernel.attached ∧
          w'.kernel.attached = w.kernel.attached.erase prog) ∨
        ∃ e, r = .error e ∧ w'.kernel.attached = w.kernel.attached ∧
          (env.fault w.calls = some e ∨ prog ∉ w.kernel.attached)) := by
  obtain ⟨hcalled, ⟨e, rfl, hk, he⟩ | ⟨v, rfl, hk⟩⟩ := call_inv hc h
  · refine ⟨hcalled, hk ▸ .refl _, .inr ⟨e, rfl, by rw [hk], he.imp_right fun he => ?_⟩⟩
    obtain ⟨errno, he⟩ := mapError_map_error he
    exact Kernel.detach_error he
  · obtain ⟨hold, ha, hid, hflags⟩ := Kernel.detach_ok (mapError_map_ok hk)
    refine ⟨hcalled, ⟨hid, fun hm _ => ?_⟩, .inl ⟨rfl, hold, ha⟩⟩
    rw [hflags]
    exact hm (List.ne_nil_of_mem hold)

theorem query_inv {r : Except OpsError Attached} (hc : env.wiped w.calls = false)
    (h : query env w = (r, w')) :
    Called .query w w' ∧ w'.kernel = w.kernel ∧
      ((∃ attached, r = .ok attached ∧
          attached.progs = w.kernel.attached.filter (·.accessible) ∧
          attached.total = w.kernel.attached.length ∧
          attached.inaccessible = w.kernel.attached.length - attached.progs.length ∧
          attached.attachFlags = w.kernel.attachFlags) ∨
        ∃ e, r = .error e ∧ env.fault w.calls = some e) := by
  obtain ⟨hcalled, ⟨e, rfl, hk, he | he⟩ | ⟨v, rfl, hk⟩⟩ := call_inv hc h
  · exact ⟨hcalled, hk, .inr ⟨e, rfl, he⟩⟩
  · cases he
  · obtain ⟨rfl, heq⟩ := Prod.mk.inj (Except.ok.inj hk)
    exact ⟨hcalled, heq.symm, .inl ⟨_, rfl, rfl, rfl, rfl, rfl⟩⟩

theorem instructions_inv {prog : Prog} {r : Except OpsError Dump}
    (hc : env.wiped w.calls = false) (h : instructions env prog w = (r, w')) :
    Called (.instructions prog) w w' ∧ w'.kernel = w.kernel ∧
      ((∃ e, r = .error e ∧ env.fault w.calls = some e) ∨ r = prog.dump) := by
  obtain ⟨hcalled, ⟨e, rfl, hk, he | he⟩ | ⟨v, rfl, hk⟩⟩ := call_inv hc h
  · exact ⟨hcalled, hk, .inl ⟨e, rfl, he⟩⟩
  · refine ⟨hcalled, hk, .inr ?_⟩
    cases hd : prog.dump with
    | error e' => rw [hd] at he; cases he; rfl
    | ok dump => rw [hd] at he; cases he
  · cases hd : prog.dump with
    | error e' => rw [hd] at hk; cases hk
    | ok dump =>
      rw [hd] at hk
      obtain ⟨rfl, heq⟩ := Prod.mk.inj (Except.ok.inj hk)
      exact ⟨hcalled, heq.symm, .inr rfl⟩

/-- The program a load makes of `raw`. -/
def newProg (id : Nat) (raw : Bytes) : Prog := ⟨id, raw, ⟨true, 0⟩, true⟩

/-- A canonical program is loaded as it is, unless it is too long. -/
theorem loadCanonical_inv {raw : Bytes} {name : String} {r : Except Error Prog}
    (hc : env.wiped w.calls = false) (hraw : CanonicalProgram raw)
    (h : loadCanonical env raw name w = (r, w')) :
    Called (.load name) w w' ∧ w'.kernel.attached = w.kernel.attached ∧
      w'.kernel.attachFlags = w.kernel.attachFlags ∧
      ((r = .ok (newProg w.kernel.nextId raw) ∧ w'.kernel.nextId = w.kernel.nextId + 1 ∧
          insnCnt raw ≤ env.insnLimit) ∨
        ∃ e, r = .error (.ops e) ∧ w'.kernel.nextId = w.kernel.nextId ∧
          (env.fault w.calls = some e ∨ env.insnLimit < insnCnt raw)) := by
  obtain ⟨is, hne, hd, he⟩ := hraw
  have henc : ∀ wrap : Nat → EncodeCause → OpsError, encodeFrom wrap 0 is = .ok raw := fun wrap =>
    encodeFrom_iff.mpr (encodeFrom_iff.mp he)
  have hload : Action.mapErr Error.ops (load env name is) w = (r, w') := by
    have hdec : (Action.ofExcept ((decode raw).mapError Error.decode) :
        Action (World sha256) Error (List Instruction)) w = (.ok is, w) := by
      rw [hd]; rfl
    rwa [loadCanonical, Action.bind_of_ok hdec] at h
  rcases Action.mapErr_inv hload with ⟨e, hl, rfl⟩ | ⟨prog, hl, rfl⟩
  · obtain ⟨hcalled, ⟨e', he', hk, hcause⟩ | ⟨v, hv, -⟩⟩ := call_inv hc hl
    · injection he' with he'
      subst he'
      refine ⟨hcalled, by rw [hk], by rw [hk],
        .inr ⟨e, rfl, by rw [hk], hcause.imp_right fun hc => ?_⟩⟩
      rw [if_neg hne, henc] at hc
      simp only [bind, Except.bind] at hc
      by_cases hlim : env.insnLimit < insnCnt raw
      · exact hlim
      · rw [if_neg hlim] at hc; cases hc
    · cases hv
  · obtain ⟨hcalled, ⟨e', he', -⟩ | ⟨v, hv, hk⟩⟩ := call_inv hc hl
    · cases he'
    · injection hv with hv
      subst hv
      rw [if_neg hne, henc] at hk
      simp only [bind, Except.bind] at hk
      by_cases hlim : env.insnLimit < insnCnt raw
      · rw [if_pos hlim] at hk; cases hk
      · rw [if_neg hlim] at hk
        obtain ⟨rfl, heq⟩ := Prod.mk.inj (Except.ok.inj hk)
        rw [← heq]
        exact ⟨hcalled, rfl, rfl, .inl ⟨rfl, rfl, Nat.le_of_not_lt hlim⟩⟩

end Call
end V2
end Sda
