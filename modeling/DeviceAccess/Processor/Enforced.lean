import DeviceAccess.V1.Exact
import DeviceAccess.V2.Access
import DeviceAccess.Processor.Narrow

/-!
# From the policy to the kernel

The rules the daemon wants for a container (`computeDesired`) are those of the devices the policy
grants (`PolicyGrants`). Once a pass for them has succeeded, a request passes exactly when the
runtime lets it pass or the policy grants its device, whatever happened to the cgroup before: on
cgroup v2 by what the attached programs mean (`grants_enforced`), on cgroup v1 by the list
(`grants_listed`).
-/

namespace Sda
namespace Processor

open Sda.Filter Sda.Asm Policy Docker

variable {σ ν : Type} {openDev : Action σ SysError (DevFs σ ν)} {info : ContainerInspect}
  {policy : Global} {s₀ : σ}

/-- The policy grants the device: the container is enabled, its labels parse, no device is in doubt,
and the mounts lead to names of the device that authorize it and to none that denies it. -/
def PolicyGrants (openDev : Action σ SysError (DevFs σ ν)) (info : ContainerInspect)
    (policy : Global) (s₀ : σ) (device : DeviceId) : Prop :=
  ∃ container dev s, Container.parse (info.labels.getD fun _ => none) = .ok container ∧
    policy.enabled container = true ∧ openDev s₀ = (.ok dev, s) ∧
    (collectContainerRules dev info.mounts ⟨policy, container⟩ s).1.deviceErrs = [] ∧
    Grants ⟨policy, container⟩ (foundCandidates dev ⟨policy, container⟩ info.mounts s) device

theorem computeDesired_enabled {rule : DeviceRule} {container : Container}
    (hparse : Container.parse (info.labels.getD fun _ => none) = .ok container)
    (h : rule ∈ (computeDesired openDev info policy s₀).1.rules) :
    policy.enabled container = true := by
  rw [computeDesired, hparse] at h
  by_contra hno
  simp only [Bool.eq_false_iff.mpr hno] at h
  cases h

/-- The wanted rules are those of the granted devices. -/
theorem mem_computeDesired {rule : DeviceRule} :
    rule ∈ (computeDesired openDev info policy s₀).1.rules ↔
      ∃ device, PolicyGrants openDev info policy s₀ device ∧ rule = grantRule device := by
  constructor
  · intro h
    obtain ⟨container, dev, s, hparse, hopen, herrs, hgranted⟩ := computeDesired_granted h
    obtain ⟨devices, hrules, -, hmem⟩ :=
      collectContainerRules_devices dev ⟨policy, container⟩ info.mounts s
    rw [hrules] at hgranted
    obtain ⟨device, hd, rfl⟩ := List.mem_map.mp hgranted
    exact ⟨device, ⟨container, dev, s, hparse, computeDesired_enabled hparse h, hopen, herrs,
      (hmem device).mp hd⟩, rfl⟩
  · rintro ⟨device, ⟨container, dev, s, hparse, henabled, hopen, herrs, hgrants⟩, rfl⟩
    obtain ⟨devices, hrules, -, hmem⟩ :=
      collectContainerRules_devices dev ⟨policy, container⟩ info.mounts s
    have hwanted : (computeDesired openDev info (Judge.mk policy container).global s₀).1.rules =
        _ :=
      computeDesired_rules hparse henabled
    rw [hwanted, collectDevices_of_ok hopen, if_pos herrs, hrules]
    exact List.mem_map_of_mem ((hmem device).mpr hgrants)

theorem exists_computeDesired {wants : DeviceRule → Prop} :
    (∃ rule ∈ (computeDesired openDev info policy s₀).1.rules, wants rule) ↔
      ∃ device, PolicyGrants openDev info policy s₀ device ∧ wants (grantRule device) := by
  constructor
  · rintro ⟨rule, hr, hwants⟩
    obtain ⟨device, hg, rfl⟩ := mem_computeDesired.mp hr
    exact ⟨device, hg, hwants⟩
  · rintro ⟨device, hg, hwants⟩
    exact ⟨grantRule device, mem_computeDesired.mpr ⟨device, hg, rfl⟩, hwants⟩

private theorem computeDesired_allow {rule : DeviceRule}
    (h : rule ∈ (computeDesired openDev info policy s₀).1.rules) : rule.allow = true := by
  obtain ⟨device, -, rfl⟩ := mem_computeDesired.mp h
  rfl

/-! ## cgroup v2 -/

/-- The request is for the device. -/
def DeviceId.Named (device : DeviceId) (req : Request) : Prop :=
  req.kind = device.kind.code.setWidth 16 ∧ req.major = device.major ∧ req.minor = device.minor

theorem grantRule_matches {device : DeviceId} {req : Request} :
    (grantRule device).matches req = true ↔ device.Named req := by
  obtain ⟨kind, major, minor⟩ := device
  have haccess : accessMatches "rwm" req.access = true := by
    unfold accessMatches
    rw [Bool.or_eq_true]
    exact .inl (by decide)
  have hkind : kindMatches (DeviceId.letter ⟨kind, major, minor⟩) req.kind = true ↔
      req.kind = kind.code.setWidth 16 := by
    cases kind <;> simp [kindMatches, DeviceId.letter, DeviceType.code]
  have hnumber : ∀ number asked : BitVec 32,
      numberMatches (some (number.toNat : Int)) asked = true ↔ asked = number := by
    intro number asked
    simp only [numberMatches, Option.any_some, Bool.or_eq_true, decide_eq_true_eq]
    rw [or_iff_right (by omega), Int.natCast_inj, BitVec.toNat_inj, eq_comm]
  rw [DeviceRule.matches, grantRule, haccess]
  simp only [Bool.and_eq_true, Bool.and_true, hkind, hnumber, and_assoc, DeviceId.Named]

/-- **What the policy grants is what the programs let pass.** A pass for the rules of the policy
succeeds after any history of the cgroup in which a pass had succeeded before, with other passes,
failures and wipes in between. Then the attached programs all let a request pass exactly when every
filter the container runtime had attached at first does, or when the policy grants the device. -/
theorem grants_enforced {sha256 : Bytes → Vector Byte 32} (openDev : Action σ SysError (DevFs σ ν))
    (info : ContainerInspect) (policy : Global) (s₀ : σ) (env : V2.Env)
    (hcalm : ∀ n, env.wiped n = false) (id : V2.Identity) (first : List DeviceRule)
    (moves : List V2.Move) (w w₁ w' : V2.World sha256)
    (hfirst : V2.setRules env id first w = (.ok (), w₁))
    (hlast : V2.setRules env id (computeDesired openDev info policy s₀).1.rules
      (V2.run env id moves w₁) = (.ok (), w')) (base : Bytes → Request → Prop) (req : Request) :
    V2.Admits sha256 base w'.kernel.attached req ↔
      (∀ original, V2.Kept id original w.kernel.attached w.cache → base original req) ∨
      ∃ device, PolicyGrants openDev info policy s₀ device ∧ device.Named req := by
  have hold := (V2.setRules_admits (fun n _ => hcalm n) hfirst fun _ => Iff.rfl).1.moves hcalm moves
  rw [(V2.setRules_admits (fun n _ => hcalm n) hlast hold.kept).2 fun _ => computeDesired_allow]
  exact or_congr_right (exists_computeDesired.trans
    (exists_congr fun _ => and_congr_right fun _ => grantRule_matches))

/-- A container that mounts `/dev/net/tun`. -/
def tunContainer : ContainerInspect := ⟨none, none, none, [⟨"bind", "/dev/net/tun".toList⟩]⟩

def allPolicy : Global := ⟨.all, none, none, validateGlobs_none, validateGlobs_none⟩

theorem run_of_isOk {σ ε : Type} {f : Action σ ε Unit} {w : σ} (h : (f w).1.isOk = true) :
    ∃ w', f w = (.ok (), w') := by
  obtain ⟨r, w', hf⟩ := f.exists_run w
  rw [hf] at h
  cases r with
  | ok => exact ⟨w', hf⟩
  | error e => cases h

theorem tunContainer_rules :
    (computeDesired (pure tunDev) tunContainer allPolicy ()).1.rules =
    [grantRule ⟨.char, 10, 200⟩] := by
  decide +kernel

/-- A pass for nothing, a wipe, and the grant of `/dev/net/tun` where the runtime denies everything.
-/
theorem grants_enforced_tunContainer :
    ∃ w₁ w', V2.setRules V2.quietEnv V2.sampleId [] V2.denyWorld = (.ok (), w₁) ∧
      V2.setRules V2.quietEnv V2.sampleId
      (computeDesired (pure tunDev) tunContainer allPolicy ()).1.rules
        (V2.run V2.quietEnv V2.sampleId [.wipe] w₁) = (.ok (), w') ∧
      ∀ base req, V2.Admits sampleSha256 base w'.kernel.attached req ↔
        (∀ original, V2.Kept V2.sampleId original V2.denyWorld.kernel.attached V2.denyWorld.cache →
          base original req) ∨
        ∃ device, PolicyGrants (pure tunDev) tunContainer allPolicy () device ∧
        device.Named req := by
  obtain ⟨w₁, h₁⟩ := run_of_isOk (f := V2.setRules V2.quietEnv V2.sampleId []) (w := V2.denyWorld)
    (by decide +kernel)
  obtain ⟨w', h'⟩ := run_of_isOk (f := V2.setRules V2.quietEnv V2.sampleId
    (computeDesired (pure tunDev) tunContainer allPolicy ()).1.rules)
    (w := V2.run V2.quietEnv V2.sampleId [.wipe] w₁) (by
      have hw₁ : w₁ = (V2.setRules V2.quietEnv V2.sampleId [] V2.denyWorld).2 := by rw [h₁]
      rw [tunContainer_rules, hw₁]
      decide +kernel)
  exact ⟨w₁, w', h₁, h', grants_enforced (pure tunDev) tunContainer allPolicy () V2.quietEnv
    (fun _ => rfl) V2.sampleId [] [.wipe] V2.denyWorld w₁ w' h₁ h'⟩

/-! ## cgroup v1 -/

theorem effective_of_ok {env : V1.Env} {id : V2.Identity} {rules : List DeviceRule}
    {w w' : V1.World} {initial : V1.DevicesList} (hbefore : (w.split id).Exact initial)
    (hrun : V1.setDeviceRules env id rules w = (.ok (), w')) {bit : V1.DevBit} :
    w'.list.Effective bit ↔ initial.Effective bit ∨ V1.Asks rules bit := by
  obtain ⟨-, e, he⟩ | ⟨desired, hdesired, -, howned⟩ := V1.setDeviceRules_inv hrun
  · cases he
  have hnew : bit ∈ w'.ledger.owned id ↔ V1.Asks rules bit ∧ ¬initial.Effective bit := by
    rw [howned rfl, V1.Split.mem_ownedNew, V1.expandRules_ok hdesired,
      ← @V1.Split.Exact.baseline _ _ bit hbefore, Bool.not_eq_true]
  refine (V1.setDeviceRules_keeps_exact hbefore hrun).effective.trans ?_
  by_cases hinitial : initial.Effective bit
  · exact iff_of_true (.inl hinitial) (.inl hinitial)
  · exact or_congr_right (hnew.trans (and_iff_left hinitial))

/-- The access is one to the device. -/
def DeviceId.Accessed (device : DeviceId) (bit : V1.DevBit) : Prop :=
  device.kind = bit.kind ∧ device.major.toNat = bit.major ∧ device.minor.toNat = bit.minor

theorem grantRule_asks {device : DeviceId} {bit : V1.DevBit} :
    ((grantRule device).kind = V1.letter bit.kind ∧
      (grantRule device).major = some (bit.major : Int) ∧
      (grantRule device).minor = some (bit.minor : Int) ∧
      bit.access.letter ∈ (grantRule device).access.toList) ↔ device.Accessed bit := by
  have haccess : bit.access.letter ∈ ("rwm" : String).toList := by cases bit.access <;> decide
  have hkind : device.letter = V1.letter bit.kind ↔ device.kind = bit.kind := by
    unfold DeviceId.letter
    cases device.kind <;> cases bit.kind <;> decide
  simp only [grantRule, Option.some.injEq, Int.natCast_inj, haccess, and_true, hkind,
    DeviceId.Accessed]

/-- **What the policy grants is what the list grants.** The daemon found nothing of its own in the
cgroup, and made any passes, with any of them failing. After a pass for the rules of the policy that
succeeds, the list grants an access exactly when it did at first or when the policy grants the
device. -/
theorem grants_listed (openDev : Action σ SysError (DevFs σ ν)) (info : ContainerInspect)
    (policy : Global) (s₀ : σ) (env : V1.Env) (id : V2.Identity) (w w₁ w' : V1.World)
    (hempty : w.ledger.owned id = ∅) (hpasses : V1.Passes env id w w₁)
    (hrun : V1.setDeviceRules env id (computeDesired openDev info policy s₀).1.rules w₁ =
      (.ok (), w')) (bit : V1.DevBit) :
    w'.list.Effective bit ↔ w.list.Effective bit ∨
      ∃ device, PolicyGrants openDev info policy s₀ device ∧ device.Accessed bit := by
  rw [effective_of_ok (hpasses.exact (V1.split_exact_of_empty hempty)) hrun]
  exact or_congr_right (exists_computeDesired.trans
    (exists_congr fun _ => and_congr_right fun _ => grantRule_asks))

theorem grants_listed_tunContainer :
    ∃ w', V1.setDeviceRules V1.quietEnv V1.sampleId
        (computeDesired (pure tunDev) tunContainer allPolicy ()).1.rules V1.sampleWorld =
        (.ok (), w') ∧
      ∀ bit, w'.list.Effective bit ↔ V1.sampleWorld.list.Effective bit ∨
        ∃ device, PolicyGrants (pure tunDev) tunContainer allPolicy () device ∧
        device.Accessed bit := by
  obtain ⟨w', h⟩ := run_of_isOk (f := V1.setDeviceRules V1.quietEnv V1.sampleId
    (computeDesired (pure tunDev) tunContainer allPolicy ()).1.rules) (w := V1.sampleWorld) (by
      rw [tunContainer_rules]
      decide +kernel)
  exact ⟨w', h, grants_listed (pure tunDev) tunContainer allPolicy () V1.quietEnv V1.sampleId
    V1.sampleWorld V1.sampleWorld w' rfl .refl h⟩

end Processor
end Sda
