import DeviceAccess.V2.Programs

/-!
# No glitch during a pass

While a pass changes the device filters of a running container, every request that was allowed
before and will be allowed after stays allowed, and nothing is allowed that was neither allowed
before nor will be after (`Planned.no_glitch`). It holds at every state the cgroup goes through,
whatever calls fail, because a program goes only after what stands for it is there
(`Handover.Reached.cover`), and because a wrapper with allow rules only never takes anything away.
-/

namespace Sda
namespace V2

open Asm Sda.Filter Handover

variable {sha256 : Bytes → Vector Byte 32}

/-- The states the cgroup goes through from `w` to `w'`. -/
def statesBetween (w w' : World sha256) : List (List Prog) :=
  w.kernel.attached :: (w'.log.drop w.log.length).map Point.attached

/-- The same environment, in which no kernel call fails by itself. -/
def Env.faultless (env : Env) : Env := { env with fault := fun _ => none }

section Planned

variable {source : Nat → Except NonceError (BitVec 64)} {id : Identity} {rules : List DeviceRule}
  {w : World sha256} {progs : List (AttachedProg sha256)} {blocks : List (Block sha256)}
  {drawn : Nat} {base : Bytes → Request → Prop} {req : Request}

/-- What stands for a block is allowed by a rule, or allows what the original of the block allows.
-/
theorem Stands.allows_standin {block : Block sha256} {part : Part Prog Prog}
    (h : Stands rules block part) (hallow : ∀ rule ∈ rules, rule.allow = true) :
    part.standin.Allows sha256 base req ↔
      Allows sha256 base block.lineage.original.raw req ∨
      ∃ rule ∈ rules, rule.matches req = true := by
  obtain ⟨raw, hs, ht, -⟩ := h.standin
  have hshow : part.standin.Allows sha256 base req ↔ Allows sha256 base raw req := by
    constructor
    · rintro ⟨raw', hs', ha⟩
      rwa [hs.unique hs']
    · exact fun ha => ⟨raw, hs, ha⟩
  rw [hshow]
  unfold Target at ht
  split at ht
  · rename_i hr
    simp [ht, hr]
  · exact allows_wrapper ⟨block.lineage.original.canonical, ht⟩ hallow

/-- A program that is still there, or what stands for it, shows that its original allows the
request. -/
theorem Stands.allows_member {block : Block sha256} {part : Part Prog Prog}
    (h : Stands rules block part) {prog : Prog} (hm : prog ∈ part.members)
    (honly : ∀ raw, prog.Shows raw → AllowOnly sha256 raw)
    (ha : Allows sha256 base block.lineage.original.raw req) : prog.Allows sha256 base req := by
  obtain ⟨raw, hs, hi⟩ := h.members prog hm
  exact ⟨raw, hs, (honly raw hs).allows hi ha⟩

/-- **No glitch.** In every state met while the plan is executed. -/
theorem Planned.no_glitch (h : Planned source id rules w progs blocks drawn)
    (hallow : ∀ rule ∈ rules, rule.allow = true)
    (honly : ∀ prog ∈ w.kernel.attached, ∀ raw, prog.Shows raw → AllowOnly sha256 raw)
    {now after : List Prog} (hnow : Reached w.kernel.attached (edits (partsIn w blocks)) now)
    (hafter : after.Perm ((partsIn w blocks).map Part.standin)) :
    (Admits sha256 base w.kernel.attached req → Admits sha256 base after req →
        Admits sha256 base now req) ∧
      (Admits sha256 base now req →
        Admits sha256 base w.kernel.attached req ∨ Admits sha256 base after req) := by
  have hcovers := h.sound.covers
  have hstandin : ∀ part ∈ partsIn w blocks, part.standin ∈ after := fun part hp =>
    hafter.mem_iff.mpr (List.mem_map_of_mem hp)
  refine ⟨fun hbefore haft prog hp => ?_, fun hn => ?_⟩
  · rcases hnow.mem hp with hold | ⟨part, hpart, hnew⟩
    · exact hbefore prog hold
    · rw [← Part.standin_of_new hnew]
      exact haft _ (hstandin part hpart)
  · by_cases hm : ∃ rule ∈ rules, rule.matches req = true
    · -- Everything that stands for a block at the end has the rule.
      refine .inr fun prog hp => ?_
      obtain ⟨part, hpart, rfl⟩ := List.mem_map.mp (hafter.mem_iff.mp hp)
      obtain ⟨block, -, hb⟩ := h.stands_part hpart
      exact (hb.allows_standin hallow).mpr (.inr hm)
    · -- No rule helps: what stands for a program allows no more than the original.
      refine .inl fun prog hp => ?_
      rcases hnow.cover hcovers hp with hp' | ⟨part, hpart, hmem, hst⟩
      · exact hn prog hp'
      · obtain ⟨block, -, hb⟩ := h.stands_part hpart
        have ho := ((hb.allows_standin hallow).mp (hn _ hst)).resolve_right hm
        exact hb.allows_member hmem (honly prog hp) ho

end Planned

theorem statesBetween_of_log {P : Point sha256 → Prop} {w w' : World sha256} {now : List Prog}
    (h : Logged P w w') (hn : now ∈ statesBetween w w') :
    now = w.kernel.attached ∨ ∃ point, P point ∧ now = point.attached := by
  obtain ⟨points, hlog, hpoints⟩ := h
  rw [statesBetween, hlog, List.drop_left] at hn
  rcases List.mem_cons.mp hn with rfl | hn
  · exact .inl rfl
  · obtain ⟨point, hp, rfl⟩ := List.mem_map.mp hn
    exact .inr ⟨point, hpoints point hp, rfl⟩

/-- **No glitch during a pass.** `aim` is the world the same pass leaves when no call fails. -/
theorem setRules_no_glitch (base : Bytes → Request → Prop) (env : Env) (id : Identity)
    (rules : List DeviceRule) (w w' aim : World sha256) (r r' : Except Error Unit)
    (hcalm : env.CalmFrom w.calls) (hallow : ∀ rule ∈ rules, rule.allow = true)
    (honly : ∀ prog ∈ w.kernel.attached, ∀ raw, prog.Shows raw → AllowOnly sha256 raw)
    (hrun : setRules env id rules w = (r, w'))
    (haim : setRules env.faultless id rules w = (r', aim)) :
    ∀ now ∈ statesBetween w w', ∀ req,
      (Admits sha256 base w.kernel.attached req → Admits sha256 base aim.kernel.attached req →
        Admits sha256 base now req) ∧
      (Admits sha256 base now req →
        Admits sha256 base w.kernel.attached req ∨ Admits sha256 base aim.kernel.attached req) := by
  intro now hnow req
  have hstill : now = w.kernel.attached → (Admits sha256 base w.kernel.attached req →
      Admits sha256 base aim.kernel.attached req → Admits sha256 base now req) ∧
      (Admits sha256 base now req →
        Admits sha256 base w.kernel.attached req ∨ Admits sha256 base aim.kernel.attached req) := by
    rintro rfl
    exact ⟨fun h _ => h, .inl⟩
  rcases setRules_inv hcalm hrun with hstopped | ⟨⟨progs, blocks, drawn, hplan⟩, hpassed⟩
  · rcases statesBetween_of_log hstopped.looked.log hnow with h | ⟨point, hp, rfl⟩
    · exact hstill h
    · exact hstill hp.2.1
  have hpassed := hpassed progs blocks drawn hplan
  rcases statesBetween_of_log hpassed.log hnow with h | ⟨point, hp, rfl⟩
  · exact hstill h
  have haimed : LoadsFit env blocks → aim.kernel.attached.Perm
      ((partsIn w blocks).map Part.standin) := by
    intro hfit
    have hout : Outcome env.faultless id rules r' w aim := setRules_inv hcalm haim
    rcases hout with hstop | ⟨-, hpassed'⟩
    · exact absurd hplan (hstop.reason (fun _ _ => rfl) progs blocks drawn)
    · have hpassed' := hpassed' progs blocks drawn hplan
      exact (hpassed'.ok (hpassed'.complete (fun _ _ => rfl) hfit)).2
  cases hp with
  | read _ h _ => exact hstill h
  | commit _ h _ => exact hstill h
  | change _ hreached _ hfit _ =>
    rcases hfit with hfit | h
    · exact hplan.no_glitch hallow honly hreached (haimed hfit)
    · exact hstill h
  | rebuilt _ hperm _ hfit =>
    have haimed := haimed hfit
    have hmem : ∀ prog, prog ∈ point.attached ↔ prog ∈ aim.kernel.attached := fun prog =>
      (hperm.trans haimed.symm).mem_iff
    exact ⟨fun _ h prog hp => h prog ((hmem prog).mp hp),
      fun h => .inr fun prog hp => h prog ((hmem prog).mpr hp)⟩

/-- A kernel that fails the second swap of two passes in a row. -/
def flakyEnv : Env :=
  { quietEnv with
    fault := fun n => if n = 6 ∨ n = 13 then some (.attach fAllowMulti Errno.perm) else none }

/-- A cgroup with a wrapper and a filter without one: the pass that was to wrap both stopped
halfway. -/
def mixedWorld : World sampleSha256 := (setRules flakyEnv sampleId [nullRule] twinWorld).2

/-- The bytes are no wrapper, or one with allow rules around bytes that are none. -/
def thinWrapper (raw : Bytes) : Bool :=
  match parseOwned sampleSha256 raw with
  | .ok none => true
  | .ok (some owned) =>
    owned.rules.all (·.allow) && decide (parseOwned sampleSha256 owned.original = .ok none)
  | .error _ => false

theorem thinWrapper_allowOnly {raw : Bytes} (h : thinWrapper raw = true) :
    AllowOnly sampleSha256 raw := by
  unfold thinWrapper at h
  split at h
  · exact .bare ‹_›
  · obtain ⟨hrules, hbare⟩ := Bool.and_eq_true_iff.mp h
    exact .wrapper ‹_› (List.all_eq_true.mp hrules) (.bare (of_decide_eq_true hbare))
  · cases h

/-- Another grant there swaps the wrapper and then fails to swap the other filter. -/
theorem setRules_no_glitch_mixedWorld :
    ∃ w' aim r r', setRules flakyEnv sampleId [tunRule] mixedWorld = (r, w') ∧
      setRules flakyEnv.faultless sampleId [tunRule] mixedWorld = (r', aim) ∧
      r.isOk = false ∧ w'.kernel.attached ≠ mixedWorld.kernel.attached ∧
      ∀ now ∈ statesBetween mixedWorld w', ∀ req,
        (Admits sampleSha256 (fun _ _ => False) mixedWorld.kernel.attached req →
          Admits sampleSha256 (fun _ _ => False) aim.kernel.attached req →
          Admits sampleSha256 (fun _ _ => False) now req) ∧
        (Admits sampleSha256 (fun _ _ => False) now req →
          Admits sampleSha256 (fun _ _ => False) mixedWorld.kernel.attached req ∨
          Admits sampleSha256 (fun _ _ => False) aim.kernel.attached req) := by
  obtain ⟨r, w', hrun⟩ := (setRules flakyEnv sampleId [tunRule]).exists_run mixedWorld
  obtain ⟨r', aim, haim⟩ := (setRules flakyEnv.faultless sampleId [tunRule]).exists_run mixedWorld
  have hfails : ∀ p, setRules flakyEnv sampleId [tunRule] mixedWorld = p → p.1.isOk = false ∧
      p.2.kernel.attached ≠ mixedWorld.kernel.attached := by
    rintro p rfl
    decide +kernel
  have hthin : ∀ prog ∈ mixedWorld.kernel.attached, ∀ raw ∈ prog.bytes, thinWrapper raw = true := by
    decide +kernel
  obtain ⟨hfailed, hchanged⟩ := hfails _ hrun
  refine ⟨w', aim, r, r', hrun, haim, hfailed, hchanged, setRules_no_glitch _ flakyEnv sampleId
    [tunRule] mixedWorld w' aim r r' (fun _ _ => rfl) ?_ ?_ hrun haim⟩
  · intro rule hr
    rw [List.mem_singleton.mp hr]
    rfl
  · intro prog hp raw hs
    exact thinWrapper_allowOnly (hthin prog hp raw hs)

end V2
end Sda
