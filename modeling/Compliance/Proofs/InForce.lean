import Compliance.Proofs.Lockstep
import Compliance.Proofs.Rooted

namespace Compliance

def Policy.inForce (p : Policy) (asset : PredicateSet) (now : Timestamp) : Policy :=
  { p with groups := p.groups.filter (·.applies asset now) }

def Framework.inForce (f : Framework) (now : Timestamp) : Framework :=
  { f with groups := f.groups.filter (·.inForce now) }

def Revision.inForce (asset : PredicateSet) (now : Timestamp) : Revision where
  policy p := p.inForce asset now
  framework f := f.inForce now

def Bundle.inForce (b : Bundle) (asset : PredicateSet) (now : Timestamp) : Bundle := b.revise (.inForce asset now)

section

variable {asset : PredicateSet} {now : Timestamp}

theorem Policy.applicable_inForce (p : Policy) :
    (p.inForce asset now).applicable asset now = p.applicable asset now := by
  simp [applicable, inForce, List.filter_filter]

theorem Policy.contentGroups_inForce (p : Policy) :
    (p.inForce asset now).contentGroups asset now = p.contentGroups asset now := by
  rw [contentGroups, applicable_inForce, contentGroups]

theorem Policy.modifierGroups_inForce (p : Policy) :
    (p.inForce asset now).modifierGroups asset now = p.modifierGroups asset now := by
  rw [modifierGroups, applicable_inForce, modifierGroups]

theorem Framework.contentGroups_inForce (f : Framework) : (f.inForce now).contentGroups now = f.contentGroups now := by
  simp [contentGroups, inForce, List.filter_filter]

theorem Framework.modifierGroups_inForce (f : Framework) : (f.inForce now).modifierGroups now = f.modifierGroups now := by
  simp [modifierGroups, inForce, List.filter_filter]

theorem Revision.inForce_keeps : (Revision.inForce asset now).Keeps asset now id where
  references p := congrArg (fun gs => gs.flatMap (·.references) ++ p.riskFactors.map (.riskFactor ·.mrn))
    p.contentGroups_inForce
  layer p depth := by
    have hcontent : (p.inForce asset now).contentGroups asset now = _ := p.contentGroups_inForce
    have hmodifier : (p.inForce asset now).modifierGroups asset now = _ := p.modifierGroups_inForce
    simp only [Policy.layer, Revision.inForce, hcontent, hmodifier]
    rfl
  depth _ := rfl
  owner _ := rfl
  said _ _ := rfl

end

theorem Overrides.map_id (o : Overrides) : o.map id = o := by
  simp [Overrides.map]

theorem Draft.steady_eq : Draft.Steady Eq where
  refl _ := rfl
  ledger h _ := by rw [h]
  index h _ := by rw [h]
  apply h _ := by rw [h]

theorem Edit.exchanges_eq (e : Edit) : e.Exchanges Eq e := by
  intro d d' h
  rw [h]

theorem Setting.veils_inForce (s : Setting) : s.Veils Eq (.inForce s.asset s.now) id where
  steady := Draft.steady_eq
  keeps := Revision.inForce_keeps
  variants _ := rfl
  narrows _ := rfl
  codeless _ h := h
  code q c h := ⟨c, h, rfl, fun role k => Edit.exchanges_eq _⟩
  policy p ls := by
    simp only [revise, Overrides.map_id]
    exact Edit.exchanges_eq _
  gates _ := rfl
  declares _ := rfl
  probes _ := rfl
  weigh k := by
    simp only [Overrides.map_id]
    exact Edit.exchanges_eq _
  contents f := congrArg (·.flatMap (·.controls)) f.contentGroups_inForce
  modifiers f type := congrArg (fun gs => (gs.filter (type ·.type)).flatMap (·.controls)) f.modifierGroups_inForce
  dependencies _ := rfl
  about _ := rfl
  backing _ := rfl
  evidence _ := rfl
  idle _ := Edit.exchanges_eq _
  start _ := rfl

namespace Bundle

variable {b b' : Bundle} {r : Request} {scope scope' : Scope}

theorem executionJob_congr (h : b.queries = b'.queries) (g : Graph) : b.executionJob g = b'.executionJob g := by
  cases b
  cases b'
  cases h
  rfl

theorem inForce_queries (asset : PredicateSet) (now : Timestamp) : (b.inForce asset now).queries = b.queries :=
  Keyed.ext (List.map_id _)

/-- Where both pass the probe, a bundle and the bundle without the groups that do not apply resolve alike. -/
theorem resolve_inForce (h : b.checkScope r = .ok scope) (h' : (b.inForce r.asset r.now).checkScope r = .ok scope') :
    ∃ res, b.resolve r = .ok res ∧
      (b.inForce r.asset r.now).resolve r = .ok { res with filters := scope'.used r.asset } := by
  obtain ⟨res, hres⟩ := exists_resolution h
  obtain ⟨scope₀, root, d, hs, hd, rfl⟩ := resolve_eq_ok.mp hres
  obtain ⟨d', hd', rfl⟩ := draft_revise (b.setting r).veils_inForce hd
  refine ⟨_, hres, resolve_eq_ok.mpr ⟨scope', root, d, h', hd', ?_⟩⟩
  simp only [finish, executionJob_congr (b.inForce_queries r.asset r.now)]

end Bundle

def dormantBundle : Bundle where
  policies := .ofList [{ mrn := "p", groups := [
    { required := ["linux"], checks := [{ mrn := "x" }, { mrn := "y" }] },
    { type := .disable, stop := 1, checks := [{ mrn := "x" }] },
    { type := .exception, checks := [{ mrn := "y" }] },
    { required := ["windows"], checks := [{ mrn := "z" }] }] }]
  frameworks := .ofList [{ mrn := "f", groups := [
    { controls := ["c"] }, { type := .outOfScope, review := .rejected, controls := ["c"] }] }]
  maps := [{ mrn := "m", framework := "f", policies := ["p"], controls := [{ mrn := "c", checks := [{ mrn := "x" }] }] }]
  queries := .ofList [{ mrn := "x", code := some { id := "cx" } }, { mrn := "y", code := some { id := "cy" } },
    { mrn := "z", code := some { id := "cz" } }]

def dormantRequest : Request where
  target := .asset "a" ["p"] ["f"]
  asset := Keyed.ofList ["linux"]
  now := 1700000000

theorem dormantBundle_inForce : ∃ scope scope', dormantBundle.checkScope dormantRequest = .ok scope ∧
    (dormantBundle.inForce dormantRequest.asset dormantRequest.now).checkScope dormantRequest = .ok scope' ∧
      ∃ res, dormantBundle.resolve dormantRequest = .ok res ∧
        (dormantBundle.inForce dormantRequest.asset dormantRequest.now).resolve dormantRequest =
          .ok { res with filters := scope'.used dormantRequest.asset } := by
  have hc : (dormantBundle.scope ["p"]).covers dormantRequest.asset = true := by decide +kernel
  have hc' : ((dormantBundle.inForce dormantRequest.asset dormantRequest.now).scope ["p"]).covers
      dormantRequest.asset = true := by decide +kernel
  have hs : dormantBundle.checkScope dormantRequest = .ok (dormantBundle.scope ["p"]) := if_pos hc
  have hs' : (dormantBundle.inForce dormantRequest.asset dormantRequest.now).checkScope dormantRequest =
      .ok ((dormantBundle.inForce dormantRequest.asset dormantRequest.now).scope ["p"]) := if_pos hc'
  exact ⟨_, _, hs, hs', Bundle.resolve_inForce hs hs'⟩

end Compliance
