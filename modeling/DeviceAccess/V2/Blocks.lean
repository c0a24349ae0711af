import DeviceAccess.V2.Execute

/-!
# A plan as one part per lineage

The plans of `DeviceAccess/V2/Plan.lean` are lists of loads and of steps with indices. They are all
built lineage by lineage, so a plan is what a list of `Block`s says (`planOf`): each block accounts
for some of the attached programs and leaves one stand-in for them (`Handover.Part`).

`execute_inv` is the result about executing such a plan: the programs met on the way are those
`Handover.Reached` describes, and a pass that ends without an error leaves exactly the stand-ins.
-/

namespace Sda
namespace V2

open Asm Sda.Filter Handover

variable {sha256 : Bytes → Vector Byte 32}

/-- A program to load: its bytes and its name. -/
abbrev Load := Bytes × String

/-- One lineage of a plan: what it accounts for, by index, and what it loads. -/
structure Block (sha256 : Bytes → Vector Byte 32) where
  lineage : CachedLineage sha256
  part : Part Nat Load

/-- The loads of a part. -/
def loadsOf (part : Part Nat Load) : List Load := part.new.toList

/-- The steps of a part whose load is number `n`. -/
def stepsOf (n : Nat) : Part Nat Load → List Step
  | .keep _ drops => drops.map .detach
  | .swap old _ drops => .pair old n :: drops.map .detach
  | .attach _ => [.attach n]

namespace PassPlan

/-- The plan with one more lineage. -/
def add (plan : PassPlan sha256) (block : Block sha256) : PassPlan sha256 :=
  (match block.part with
  | .keep _ drops => drops.foldl detach plan
  | .swap old load drops => drops.foldl detach (plan.pair old load.1 load.2)
  | .attach load => plan.attach load.1 load.2).remember block.lineage

private theorem foldl_detach (plan : PassPlan sha256) (drops : List Nat) :
    drops.foldl detach plan = { plan with steps := plan.steps ++ drops.map .detach } := by
  induction drops generalizing plan with
  | nil => simp
  | cons old drops ih => rw [List.foldl_cons, ih]; simp [detach]

theorem detachAll_eq (plan : PassPlan sha256) (progs : List (AttachedProg sha256)) :
    plan.detachAll progs = (progs.map AttachedProg.index).foldl detach plan := by
  rw [detachAll, List.foldl_map]

theorem add_eq (plan : PassPlan sha256) (block : Block sha256) :
    plan.add block =
      ⟨plan.loads ++ (loadsOf block.part).map Prod.fst,
        plan.names ++ (loadsOf block.part).map Prod.snd,
        plan.steps ++ stepsOf plan.loads.length block.part, plan.lineages ++ [block.lineage]⟩ := by
  obtain ⟨lineage, part⟩ := block
  cases part with
  | keep keeper drops => simp [add, foldl_detach, remember, loadsOf, stepsOf, Part.new]
  | swap old new drops =>
    simp [add, foldl_detach, remember, loadsOf, stepsOf, Part.new, pair, load]
  | attach new => simp [add, remember, loadsOf, stepsOf, Part.new, attach, load]

end PassPlan

/-- The plan that consists of the blocks. -/
def planOf (blocks : List (Block sha256)) : PassPlan sha256 :=
  blocks.foldl PassPlan.add PassPlan.empty

/-- The steps of all parts, from load number `n` on. -/
def stepsFrom : Nat → List (Part Nat Load) → List Step
  | _, [] => []
  | n, part :: parts => stepsOf n part ++ stepsFrom (n + (loadsOf part).length) parts

theorem foldl_add (plan : PassPlan sha256) (blocks : List (Block sha256)) :
    blocks.foldl PassPlan.add plan =
      ⟨plan.loads ++ (blocks.flatMap (loadsOf ·.part)).map Prod.fst,
        plan.names ++ (blocks.flatMap (loadsOf ·.part)).map Prod.snd,
        plan.steps ++ stepsFrom plan.loads.length (blocks.map Block.part),
        plan.lineages ++ blocks.map Block.lineage⟩ := by
  induction blocks generalizing plan with
  | nil => simp [stepsFrom]
  | cons block blocks ih =>
    rw [List.foldl_cons, ih, PassPlan.add_eq]
    simp [stepsFrom, List.append_assoc]

section PlanOf

variable (blocks : List (Block sha256))

@[simp] theorem planOf_loads :
    (planOf blocks).loads = (blocks.flatMap (loadsOf ·.part)).map Prod.fst := by
  rw [planOf, foldl_add]; rfl

theorem planOf_zip :
    (planOf blocks).loads.zip (planOf blocks).names = blocks.flatMap (loadsOf ·.part) := by
  rw [planOf, foldl_add]
  simp only [PassPlan.empty, List.nil_append]
  exact (List.zip_of_prod rfl rfl).symm

theorem planOf_steps : (planOf blocks).steps = stepsFrom 0 (blocks.map Block.part) := by
  rw [planOf, foldl_add]; rfl

@[simp] theorem planOf_lineages : (planOf blocks).lineages = blocks.map Block.lineage := by
  rw [planOf, foldl_add]; rfl

end PlanOf

/-! ## The programs a plan is about -/

/-- The attached program at `index`. -/
def fetch (attached : List Prog) (index : Nat) : Prog :=
  attached.getD index ⟨0, [], ⟨false, 0⟩, false⟩

theorem getElem?_fetch {attached : List Prog} {index : Nat} (h : index < attached.length) :
    attached[index]? = some (fetch attached index) := by
  rw [fetch, List.getD_eq_getElem?_getD, List.getElem?_eq_getElem h, Option.getD_some]

theorem map_fetch_range (attached : List Prog) :
    (List.range attached.length).map (fetch attached) = attached := by
  apply List.ext_getElem
  · simp
  · intro i h₁ h₂
    rw [List.getElem_map, List.getElem_range]
    exact Option.some.inj ((getElem?_fetch h₂).symm.trans (List.getElem?_eq_getElem h₂))

/-- A part of the plan on the programs themselves; `id` is the identity of what it loads. -/
def realizePart (attached : List Prog) (id : Nat) : Part Nat Load → Part Prog Prog
  | .keep keeper drops => .keep (fetch attached keeper) (drops.map (fetch attached))
  | .swap old load drops =>
    .swap (fetch attached old) (newProg id load.1) (drops.map (fetch attached))
  | .attach load => .attach (newProg id load.1)

/-- All parts on the programs themselves. -/
def realize (attached : List Prog) : Nat → List (Part Nat Load) → List (Part Prog Prog)
  | _, [] => []
  | id, part :: parts =>
    realizePart attached id part :: realize attached (id + (loadsOf part).length) parts

theorem mem_realize {attached : List Prog} {id : Nat} {parts : List (Part Nat Load)}
    {part : Part Nat Load} (h : part ∈ parts) :
    ∃ id', realizePart attached id' part ∈ realize attached id parts := by
  induction parts generalizing id with
  | nil => cases h
  | cons first parts ih =>
    rcases List.mem_cons.mp h with rfl | h
    · exact ⟨id, List.mem_cons_self⟩
    · obtain ⟨id', hm⟩ := @ih (id + (loadsOf first).length) h
      exact ⟨id', List.mem_cons_of_mem _ hm⟩

theorem mem_newProgs {id : Nat} {raws : List Bytes} {prog : Prog} (h : prog ∈ newProgs id raws) :
    id ≤ prog.id ∧ prog.id < id + raws.length := by
  induction raws generalizing id with
  | nil => cases h
  | cons raw raws ih =>
    rcases List.mem_cons.mp h with rfl | h
    · exact ⟨Nat.le_refl _, by simp [newProg]⟩
    · have := ih h
      rw [List.length_cons]
      omega

theorem newProgs_nodup (id : Nat) (raws : List Bytes) : (newProgs id raws).Nodup := by
  induction raws generalizing id with
  | nil => exact List.nodup_nil
  | cons raw raws ih =>
    refine List.nodup_cons.mpr ⟨fun h => ?_, ih (id + 1)⟩
    have := (mem_newProgs h).1
    simp only [newProg] at this
    omega

theorem newProgs_append (id : Nat) (a b : List Bytes) :
    newProgs id (a ++ b) = newProgs id a ++ newProgs (id + a.length) b := by
  induction a generalizing id with
  | nil => rfl
  | cons raw a ih =>
    rw [List.cons_append, newProgs, newProgs, ih, List.length_cons, List.cons_append]
    congr 2
    congr 1
    omega

private theorem newProgs_length (id : Nat) (raws : List Bytes) :
    (newProgs id raws).length = raws.length := by
  induction raws generalizing id with
  | nil => rfl
  | cons raw raws ih => rw [newProgs, List.length_cons, ih, List.length_cons]

theorem realize_members (attached : List Prog) (id : Nat) (parts : List (Part Nat Load)) :
    (realize attached id parts).flatMap Part.members =
      (parts.flatMap Part.members).map (fetch attached) := by
  induction parts generalizing id with
  | nil => rfl
  | cons part parts ih =>
    rw [realize, List.flatMap_cons, ih, List.flatMap_cons, List.map_append]
    cases part <;> rfl

theorem realize_new (attached : List Prog) (id : Nat) (parts : List (Part Nat Load)) :
    (realize attached id parts).filterMap Part.new =
      newProgs id ((parts.flatMap loadsOf).map Prod.fst) := by
  induction parts generalizing id with
  | nil => rfl
  | cons part parts ih =>
    rw [realize, List.flatMap_cons, List.map_append, newProgs_append, ← ih]
    cases part <;> rfl

/-- The parts of a plan that accounts for every attached program once. -/
theorem covers_realize {kernel : Kernel} {parts : List (Part Nat Load)}
    (h : (parts.flatMap Part.members).Perm (List.range kernel.attached.length)) :
    Covers kernel.attached (realize kernel.attached kernel.nextId parts) where
  start_nodup := kernel.distinct
  members := by
    rw [realize_members]
    exact (h.map _).trans (.of_eq (map_fetch_range _))
  new_nodup := by rw [realize_new]; exact newProgs_nodup _ _
  new_fresh prog hp hm := by
    rw [realize_new] at hp
    have := (mem_newProgs hp).1
    have := kernel.known prog hm
    omega

/-- The steps of the plan are the edits of its parts. -/
theorem stepsFrom_edits {attached : List Prog} {id : Nat} (front : List Bytes)
    {parts : List (Part Nat Load)} (h : ∀ i ∈ parts.flatMap Part.members, i < attached.length) :
    List.Forall₂
      (fun step e => step.edit attached
        (newProgs id (front ++ (parts.flatMap loadsOf).map Prod.fst)) = some e)
      (stepsFrom front.length parts) (edits (realize attached (id + front.length) parts)) := by
  induction parts generalizing front with
  | nil => exact .nil
  | cons part parts ih =>
    rw [List.flatMap_cons] at h
    have hpart : ∀ i ∈ part.members, i < attached.length := fun i hi =>
      h i (List.mem_append_left _ hi)
    have hrest := ih (front ++ (loadsOf part).map Prod.fst) fun i hi =>
      h i (List.mem_append_right _ hi)
    have hdrops : ∀ drops : List Nat, (∀ i ∈ drops, i < attached.length) →
        ∀ loaded, List.Forall₂ (fun (step : Step) e => step.edit attached loaded = some e)
          (drops.map .detach) ((drops.map (fetch attached)).map .detach) := by
      intro drops hd loaded
      rw [List.map_map, List.forall₂_map_left_iff, List.forall₂_map_right_iff, List.forall₂_same]
      intro i hi
      simp [Step.edit, getElem?_fetch (hd i hi)]
    have hnew : ∀ raw rest, (newProgs id (front ++ raw :: rest))[front.length]? =
        some (newProg (id + front.length) raw) := by
      intro raw rest
      rw [newProgs_append, List.getElem?_append_right (Nat.le_of_eq (newProgs_length ..)),
        newProgs_length, Nat.sub_self, newProgs, List.getElem?_cons_zero]
    rw [List.append_assoc, ← List.map_append, ← List.flatMap_cons] at hrest
    rw [stepsFrom, realize, edits_cons]
    refine List.rel_append ?_ ?_
    · cases part with
      | keep keeper drops => exact hdrops drops (fun i hi => hpart i (List.mem_cons_of_mem _ hi)) _
      | swap old load drops =>
        refine .cons ?_ (hdrops drops (fun i hi => hpart i (List.mem_cons_of_mem _ hi)) _)
        have hold := getElem?_fetch (hpart old List.mem_cons_self)
        simp [Step.edit, hold, loadsOf, Part.new, hnew]
      | attach load =>
        refine .cons ?_ .nil
        simp [Step.edit, loadsOf, Part.new, hnew]
    · simpa [Nat.add_assoc] using hrest

/-! ## Executing a plan -/

variable {env : Env} {w w' : World sha256} {blocks : List (Block sha256)}

/-- The parts of the plan in the cgroup of `world`. -/
def partsIn (world : World sha256) (blocks : List (Block sha256)) : List (Part Prog Prog) :=
  realize world.kernel.attached world.kernel.nextId (blocks.map Block.part)

/-- No program of the plan is too long for the kernel. -/
def LoadsFit (env : Env) (blocks : List (Block sha256)) : Prop :=
  ∀ load ∈ blocks.flatMap (loadsOf ·.part), insnCnt load.1 ≤ env.insnLimit

/-- The plan accounts for every attached program once, and loads canonical programs. -/
structure Sound (blocks : List (Block sha256)) (total : Nat) : Prop where
  members : (blocks.flatMap (·.part.members)).Perm (List.range total)
  canonical : ∀ load ∈ blocks.flatMap (loadsOf ·.part), CanonicalProgram load.1

/-- What executing the plan of the blocks does. -/
structure Executed (env : Env) (blocks : List (Block sha256)) (r : Except Error Unit)
    (w w' : World sha256) : Prop where
  trail : Trail (fun event now => event.changes = true ∧
    Reached w.kernel.attached (edits (partsIn w blocks)) now) w w'
  now : Reached w.kernel.attached (edits (partsIn w blocks)) w'.kernel.attached
  multi : w.kernel.Multi → w'.kernel.Multi
  /-- Without an error, exactly the stand-ins are attached. -/
  ok : r = .ok () → LoadsFit env blocks ∧
    w'.kernel.attached.Perm ((partsIn w blocks).map Part.standin)
  /-- When a program is too long, nothing changes. -/
  fit : LoadsFit env blocks ∨
    Trail (fun event now => event.changes = true ∧ now = w.kernel.attached) w w' ∧
      w'.kernel.attached = w.kernel.attached
  complete : env.FaultlessFrom w.calls → LoadsFit env blocks → r = .ok ()
  /-- A plan that changes nothing makes no call. -/
  idle : (planOf blocks).loads = [] → (planOf blocks).steps = [] → r = .ok () ∧ w' = w

private theorem execute_idle {attached : List Prog} {plan : PassPlan sha256} (hl : plan.loads = [])
    (hs : plan.steps = []) : execute env attached plan w = (.ok (), w) := by
  rw [execute, hl, hs]
  rfl

theorem Sound.covers (h : Sound blocks w.kernel.attached.length) :
    Covers w.kernel.attached (partsIn w blocks) := by
  apply covers_realize
  rw [List.flatMap_map]
  exact h.members

/-- The steps of the plan are the edits of its parts in the cgroup. -/
theorem Sound.steps {attached : List Prog} (hs : Sound blocks attached.length) (id : Nat) :
    List.Forall₂ (fun step e => step.edit attached
        (newProgs id ((blocks.flatMap (loadsOf ·.part)).map Prod.fst)) = some e)
      (planOf blocks).steps (edits (realize attached id (blocks.map Block.part))) := by
  have hsteps := @stepsFrom_edits attached id [] (blocks.map Block.part) (by
    intro i hi
    rw [List.flatMap_map] at hi
    exact List.mem_range.mp (hs.members.mem_iff.mp hi))
  rw [List.nil_append, List.flatMap_map] at hsteps
  rw [planOf_steps]
  exact hsteps

/-- **Executing a plan.** -/
theorem execute_inv {r : Except Error Unit} (hs : Sound blocks w.kernel.attached.length)
    (hc : env.CalmFrom w.calls)
    (h : execute env w.kernel.attached (planOf blocks) w = (r, w')) :
    Executed env blocks r w w' := by
  have hcover := hs.covers
  have hidle : (planOf blocks).loads = [] → (planOf blocks).steps = [] → r = .ok () ∧ w' = w := by
    intro hl hs
    rw [execute_idle hl hs] at h
    cases h
    exact ⟨rfl, rfl⟩
  rw [execute, planOf_zip] at h
  rcases Action.bind_inv h with ⟨e, hload, rfl⟩ | ⟨loaded, w₁, hload, h⟩
  · -- A load failed.
    obtain ⟨ht, hnow, hflags, ⟨hok, -⟩ | ⟨e', -, hcause⟩⟩ := loadAll_inv hc hs.canonical hload
    · cases hok
    · have hstart := @reached_start _ _ w.kernel.attached (edits (partsIn w blocks))
      refine ⟨ht.mono fun event now hp => ⟨hp.1, hp.2 ▸ hstart⟩, hnow ▸ hstart, ?_, nofun,
        .inr ⟨ht, hnow⟩, fun hf hfit => ?_, hidle⟩
      · intro hm hne
        rw [hflags]
        exact hm (hnow ▸ hne)
      · obtain ⟨load, hm, hlt⟩ := hcause hf
        exact absurd (hfit load hm) (by omega)
  · obtain ⟨ht, hnow, hflags, ⟨hok, hid, hfit⟩ | ⟨e', he, -⟩⟩ := loadAll_inv hc hs.canonical hload
    swap
    · cases he
    cases hok
    have hraws : ((blocks.map Block.part).flatMap loadsOf).map Prod.fst =
        (blocks.flatMap (loadsOf ·.part)).map Prod.fst := by
      rw [List.flatMap_map]
    have hsteps := hs.steps w.kernel.nextId
    have hknown : ∀ prog ∈ news (edits (partsIn w blocks)), prog.id < w₁.kernel.nextId := by
      intro prog hm
      rw [news_edits, partsIn, realize_new, hraws] at hm
      have := (mem_newProgs hm).2
      rw [List.length_map] at this
      omega
    have hperm : w₁.kernel.attached.Perm (settled w.kernel.attached []) := by
      rw [hnow, settled_nil]
    obtain ⟨hp, hok, hcomplete⟩ := executeFrom_inv hsteps (hc.mono ht.calls)
      hcover.fits hperm hknown h
    simp only [List.nil_append] at hp hok
    have hstart := @reached_start _ _ w.kernel.attached (edits (partsIn w blocks))
    refine ⟨(ht.mono fun event now hp => ⟨hp.1, hp.2 ▸ hstart⟩).trans hp.trail, hp.now, ?_, ?_,
      .inl hfit, fun hf _ => hcomplete (hf.mono ht.calls), hidle⟩
    · intro hm
      refine hp.keeps.multi fun hne => ?_
      rw [hflags]
      exact hm (hnow ▸ hne)
    · intro hr
      exact ⟨hfit, (hok hr).trans (settled_parts hcover)⟩

end V2
end Sda
