import Compliance.Proofs.Lockstep
import Compliance.Proofs.Rooted

namespace Compliance

def RiskFactorRef.bare (r : RiskFactorRef) : RiskFactorRef := { r with magnitude := none }

def PolicyGroup.bare (g : PolicyGroup) : PolicyGroup :=
  { g with uid := none, riskFactors := g.riskFactors.map (·.bare) }

def Policy.bare (p : Policy) : Policy :=
  { p with
    owner := "", title := none, scoring := .unspecified
    groups := p.groups.map (·.bare), riskFactors := p.riskFactors.map (·.bare) }

def FrameworkGroup.bare (g : FrameworkGroup) : FrameworkGroup := { g with uid := none }

def Framework.bare (f : Framework) : Framework := { f with title := none, groups := f.groups.map (·.bare) }

def Code.bare (c : Code) : Code := { id := c.id }

def Query.bare (q : Query) : Query := { q with title := none, code := q.code.map (·.bare), properties := [] }

def RiskFactor.bare (k : RiskFactor) : RiskFactor := { k with title := none, magnitude := 0 }

def Revision.bare : Revision where
  owner _ := ""
  policy := Policy.bare
  framework := Framework.bare
  map m := { m with mrn := "" }
  query := Query.bare
  riskFactor := RiskFactor.bare

/-- The bundle without what is only shown or scored: titles, group uids, owners and the mrns of framework
maps, the scoring of policies, all of a code but its id, properties, and the magnitudes of risk factors. -/
def Bundle.bare (b : Bundle) : Bundle := b.revise .bare

def Change.bare (c : Change) : Change := { c with magnitude := none }

def Layer.bare (l : Layer) : Layer := { l with changes := l.changes.map fun x => (x.1, x.2.bare) }

section

variable {asset : PredicateSet} {now : Timestamp}

theorem Layer.change_concat (depth : Nat) (owner : Mrn) (xs : List (Mrn × Change)) (x : Mrn × Change) (m : Mrn) :
    Layer.change ⟨depth, owner, xs ++ [x]⟩ m =
      if x.1 = m then (Layer.change ⟨depth, owner, xs⟩ m).then x.2 else Layer.change ⟨depth, owner, xs⟩ m := by
  simp only [change, List.filterMap_append, List.foldl_append]
  by_cases h : x.1 = m <;> simp [h]

theorem Layer.bare_change (l : Layer) (m : Mrn) : l.bare.change m = (l.change m).bare := by
  obtain ⟨depth, owner, changes⟩ := l
  induction changes using List.reverseRecOn with
  | nil => rfl
  | append_singleton xs x ih =>
    have hbare : Layer.bare ⟨depth, owner, xs ++ [x]⟩ =
        ⟨depth, owner, xs.map (fun x => (x.1, x.2.bare)) ++ [(x.1, x.2.bare)]⟩ := by simp [bare]
    rw [hbare, change_concat, change_concat]
    split
    · exact congrArg (Change.then · x.2.bare) ih
    · exact ih

theorem Layer.bare_said (l : Layer) (m : Mrn) : l.bare.says? m = l.says? m := by
  rw [says?, bare_change, says?]
  rfl

theorem Policy.contentGroups_bare (p : Policy) :
    p.bare.contentGroups asset now = (p.contentGroups asset now).map (·.bare) := by
  simp only [contentGroups, applicable, bare, List.filter_map]
  rfl

theorem Policy.modifierGroups_bare (p : Policy) :
    p.bare.modifierGroups asset now = (p.modifierGroups asset now).map (·.bare) := by
  simp only [modifierGroups, applicable, bare, List.filter_map]
  rfl

theorem Policy.declaredContent_bare (p : Policy) : p.bare.declaredContent = p.declaredContent.map (·.bare) := by
  simp only [declaredContent, bare, List.filter_map]
  rfl

theorem RiskFactorRef.map_bare_mrn (rs : List RiskFactorRef) : (rs.map (·.bare)).map (·.mrn) = rs.map (·.mrn) := by
  rw [List.map_map]
  rfl

theorem PolicyGroup.references_bare (g : PolicyGroup) : g.bare.references = g.references := by
  simp [references, bare, RiskFactorRef.bare]

theorem PolicyGroup.modifierChanges_bare (g : PolicyGroup) : g.bare.modifierChanges = g.modifierChanges := by
  simp only [modifierChanges, targets, modifierAction, bare, List.map_map]
  rfl

theorem Framework.contentGroups_bare (f : Framework) :
    f.bare.contentGroups now = (f.contentGroups now).map (·.bare) := by
  simp only [contentGroups, bare, List.filter_map]
  rfl

theorem Framework.modifierGroups_bare (f : Framework) :
    f.bare.modifierGroups now = (f.modifierGroups now).map (·.bare) := by
  simp only [modifierGroups, bare, List.filter_map]
  rfl

theorem Policy.references_bare (p : Policy) : p.bare.references asset now = p.references asset now := by
  rw [references, contentGroups_bare, references]
  simp only [List.flatMap_map, PolicyGroup.references_bare, bare, List.map_map]
  rfl

theorem Policy.layer_bare (p : Policy) (depth : Nat) : p.bare.layer asset now depth = (p.layer asset now depth).bare := by
  have hcontent : ∀ g : PolicyGroup, g.bare.contentChanges = g.contentChanges.map fun x => (x.1, x.2.bare) := by
    intro g
    simp only [PolicyGroup.contentChanges, PolicyGroup.bare, List.map_append, List.map_map]
    rfl
  have hmodifier : ∀ g : PolicyGroup, g.modifierChanges.map (fun x => (x.1, x.2.bare)) = g.modifierChanges := by
    intro g
    rw [PolicyGroup.modifierChanges, List.map_map]
    rfl
  have hrisks : p.bare.riskFactors.map RiskFactorRef.change =
      (p.riskFactors.map RiskFactorRef.change).map fun x => (x.1, x.2.bare) := by
    rw [bare, List.map_map, List.map_map]
    rfl
  simp only [layer, Layer.bare, contentGroups_bare, modifierGroups_bare, List.flatMap_map, hcontent, hrisks,
    PolicyGroup.modifierChanges_bare, List.map_append, List.map_flatMap, hmodifier]
  rfl

theorem Revision.bare_keeps : Revision.bare.Keeps asset now Layer.bare where
  references := Policy.references_bare
  layer := Policy.layer_bare
  depth _ := rfl
  owner _ := rfl
  said := Layer.bare_said

theorem Revision.bare_keepsScope : Revision.bare.KeepsScope where
  leads p := by
    change (p.bare.declaredContent.flatMap _) = _
    rw [p.declaredContent_bare, List.flatMap_map]
    rfl
  gates p := by
    change p.bare.declaredContent.map _ = _
    rw [p.declaredContent_bare, List.map_map]
    rfl
  asks p := by
    change (p.bare.declaredContent.flatMap _) = _
    rw [p.declaredContent_bare, List.flatMap_map]
    rfl
  risks p := by
    have hgroups : p.bare.declaredContent.flatMap (·.riskFactors) =
        (p.declaredContent.flatMap (·.riskFactors)).map (·.bare) := by
      rw [p.declaredContent_bare, List.flatMap_map, List.map_flatMap]
      rfl
    change (p.bare.declaredContent.flatMap _ ++ p.riskFactors.map RiskFactorRef.bare).map _ = _
    rw [hgroups, ← List.map_append, RiskFactorRef.map_bare_mrn]
  gate _ := rfl
  probes _ := rfl
  narrows _ := rfl
  variants _ := rfl

end

def Job.outline (j : Job) : Job := { j with scoring := .unspecified, datapoints := [] }

def Graph.outline (g : Graph) : Graph := ⟨g.jobs.map (·.outline)⟩

def Draft.outline (d : Draft) : Draft := { d with graph := d.graph.outline, events := [], magnitudes := Keyed.empty }

namespace Graph

variable (g : Graph) (i : Identity)

theorem find?_outline : g.outline.find? i = (g.find? i).map (·.outline) := by
  rw [find?, outline, List.find?_map, find?]
  rfl

theorem ensure_outline (type : JobType) (scoring : ScoringSystem) :
    (g.ensure i type scoring).outline = g.outline.ensure i type .unspecified := by
  rw [ensure, ensure, find?_outline, Option.isSome_map]
  split
  · rfl
  · simp [outline, Job.outline]

theorem modify_outline {g g' : Graph} {f f' : Job → Job} (hg : g.outline = g')
    (hf : ∀ j, (f j).outline = f' j.outline) : (g.modify i f).outline = g'.modify i f' := by
  rw [← hg]
  simp only [outline, modify, List.map_map]
  congr 1
  apply List.map_congr_left
  intro j _
  have hid : j.outline.identity = j.identity := rfl
  simp only [Function.comp_apply, hid]
  split
  · exact hf j
  · rfl

theorem addMrns_outline (ms : List Mrn) : (g.addMrns i ms).outline = g.outline.addMrns i ms :=
  modify_outline i rfl fun _ => rfl

theorem hasEdge_outline (c : Identity) : g.outline.hasEdge i c = g.hasEdge i c := by
  rw [hasEdge, find?_outline, hasEdge]
  cases g.find? i <;> rfl

theorem connect_outline (c : Identity) (w : Impact) : (g.connect i c w).outline = g.outline.connect i c w := by
  rw [connect, connect, hasEdge_outline]
  split
  · rfl
  · exact modify_outline _ (modify_outline _ rfl fun _ => rfl) fun _ => rfl

theorem connectAll_outline (ls : List (Identity × Impact)) :
    (g.connectAll i ls).outline = g.outline.connectAll i ls := by
  induction ls generalizing g with
  | nil => rfl
  | cons l rest ih =>
    have hstep : ∀ g : Graph, g.connectAll i (l :: rest) = (g.connect i l.1 l.2).connectAll i rest := fun _ => rfl
    rw [hstep, hstep, ih, connect_outline]

theorem raise_outline (type : JobType) (scoring : ScoringSystem) (ms : List Mrn) (ls : List (Identity × Impact)) :
    (g.raise i type scoring ms ls).outline = g.outline.raise i type .unspecified ms ls := by
  rw [raise, connectAll_outline, addMrns_outline, ensure_outline, raise]

theorem plant_outline (type : JobType) (ms : List Mrn) (m : Mrn) (id : CodeId) (cs : List Checksum) :
    (g.plant i type ms m id cs).outline = g.outline.plant i type ms m id [] := by
  have hmrns : ((g.ensure i type .unspecified).addMrns i ms).outline =
      (g.outline.ensure i type .unspecified).addMrns i ms := by rw [addMrns_outline, ensure_outline]
  exact modify_outline i (modify_outline i hmrns fun _ => rfl) fun _ => rfl

theorem shareMrns_outline : g.shareMrns.outline = g.outline.shareMrns := by
  have hsiblings : ∀ id : CodeId,
      ((g.outline.jobs.filter fun j => j.type == .dataQuery && j.origin.any (·.2 == id)).flatMap (·.mrns)) =
      (g.jobs.filter fun j => j.type == .dataQuery && j.origin.any (·.2 == id)).flatMap (·.mrns) := by
    intro id
    rw [outline, List.filter_map, List.flatMap_map]
    rfl
  simp only [shareMrns, hsiblings]
  simp only [outline, List.map_map]
  congr 1
  apply List.map_congr_left
  intro j _
  have htype : j.outline.type = j.type := rfl
  have horigin : j.outline.origin = j.origin := rfl
  simp only [Function.comp_apply, htype, horigin]
  split <;> rfl

theorem checksum_outline : g.outline.checksum = g.checksum := by
  have hlines : g.outline.lines = g.lines := by
    rw [lines, outline, List.flatMap_map, lines]
    rfl
  rw [checksum, checksumText, hlines, checksum, checksumText]

end Graph

namespace Draft

theorem enter_outline (d : Draft) (role : Role) (m : Mrn) (i : Identity) :
    (d.enter role m i).outline = d.outline.enter role m i := by
  have hindex : d.outline.index role = d.index role := by cases role <;> rfl
  unfold enter
  rw [hindex]
  split
  · rfl
  · cases role <;> rfl

theorem leaf_outline (d : Draft) (role : Role) (q : Query) (c : Code) (k : Option Mrn) :
    (d.apply (.leaf role q c k)).outline = d.outline.apply (.leaf role q c.bare k) := by
  refine (enter_outline ..).trans ?_
  have hid : leafIdentity role q c.bare = leafIdentity role q c := by cases role <;> rfl
  simp only [apply, leaf, hid]
  congr 1
  simp only [outline, mk.injEq, and_true]
  exact Graph.plant_outline d.graph _ role.jobType (q.mrn :: k.toList) q.mrn c.id c.checksums

theorem composite_outline (d : Draft) (role : Role) (q : Query) (vs : List (Mrn × Link)) :
    (d.apply (.composite role q vs)).outline = d.outline.apply (.composite role q vs) := by
  simp only [apply, above]
  split
  · rfl
  · refine (enter_outline ..).trans ?_
    congr 1
    simp only [outline, mk.injEq, and_true]
    exact Graph.raise_outline d.graph _ role.jobType .unspecified (q.mrn :: vs.map Prod.fst) (vs.map Prod.snd)

theorem structural_outline (d : Draft) (m : Mrn) (t : JobType) (sc : ScoringSystem) (ls : List Link) :
    (d.apply (.structural m t sc ls)).outline = d.outline.apply (.structural m t .unspecified ls) := by
  simp only [apply, structural]
  split
  · rfl
  · simp only [outline, mk.injEq, and_true]
    exact Graph.raise_outline d.graph _ t sc [m] ls

def Akin (d d' : Draft) : Prop := d.outline = d'.outline

theorem steady_akin : Steady Akin where
  refl _ := rfl
  ledger {d d'} h t := by
    have hl : ∀ d : Draft, d.outline.ledger t = d.ledger t := fun d => by cases t <;> rfl
    rw [← hl, h, hl]
  index {d d'} h role := by
    have hi : ∀ d : Draft, d.outline.index role = d.index role := fun d => by cases role <;> rfl
    rw [← hi, h, hi]
  apply {d d'} h e := by
    unfold Akin at h ⊢
    cases e with
    | note e => exact h
    | leaf role q c k => rw [leaf_outline, leaf_outline, h]
    | composite role q vs => rw [composite_outline, composite_outline, h]
    | structural m t sc ls => rw [structural_outline, structural_outline, h]
    | connect p c w =>
      have hc : ∀ d : Draft, (d.apply (.connect p c w)).outline = d.outline.apply (.connect p c w) := by
        intro d
        simp only [apply, outline, Graph.connect_outline]
      rw [hc, hc, h]
    | settle t m made =>
      have hs : ∀ d : Draft, (d.apply (.settle t m made)).outline = d.outline.apply (.settle t m made) := by
        intro d
        cases t <;> rfl
      rw [hs, hs, h]
    | weigh m x => exact h

end Draft

theorem Setting.veils_bare (s : Setting) : s.Veils Draft.Akin .bare Layer.bare where
  steady := Draft.steady_akin
  keeps := Revision.bare_keeps
  variants _ := rfl
  narrows _ := rfl
  codeless q h := by
    change q.code.map (·.bare) = none
    rw [h, Option.map_none]
  code q c h := by
    refine ⟨c.bare, ?_, rfl, fun role k d d' hd => ?_⟩
    · change q.code.map (·.bare) = _
      rw [h, Option.map_some]
    · unfold Draft.Akin at hd ⊢
      rw [Draft.leaf_outline, Draft.leaf_outline, hd]
      rfl
  policy p ls := by
    intro d d' hd
    unfold Draft.Akin at hd ⊢
    rw [Draft.structural_outline, Draft.structural_outline, hd]
  gates _ := rfl
  declares _ := rfl
  probes _ := rfl
  weigh k := fun _ _ hd => hd
  contents f := by
    change (f.bare.contentGroups s.now).flatMap _ = _
    rw [f.contentGroups_bare, List.flatMap_map]
    rfl
  modifiers f type := by
    change ((f.bare.modifierGroups s.now).filter _).flatMap _ = _
    rw [f.modifierGroups_bare, List.filter_map, List.flatMap_map]
    rfl
  dependencies _ := rfl
  about _ := rfl
  backing _ := rfl
  evidence _ := rfl
  idle _ := fun _ _ hd => hd
  start p := by
    simp [Draft.Akin, Draft.outline, Draft.start, Graph.outline, Graph.ensure, Graph.find?, Graph.addMrns, Graph.modify,
      Job.outline]

structure Outline where
  root : Identity
  graph : Graph
  filters : PredicateSet
  checksum : String

def Resolution.outline (res : Resolution) : Outline where
  root := res.root
  graph := res.graph.outline
  filters := res.filters
  checksum := res.checksum

namespace Bundle

variable {b b' : Bundle} {r : Request}

theorem checkScope_bare (b : Bundle) (r : Request) : b.bare.checkScope r = b.checkScope r := by
  rw [checkScope, checkScope, bare, Revision.bare_keepsScope.scope, isDeclared_revise]

theorem resolve_bare (b : Bundle) (r : Request) :
    (b.bare.resolve r).map Resolution.outline = (b.resolve r).map Resolution.outline := by
  cases hs : b.checkScope r with
  | error e =>
    rw [resolve_of_error hs, resolve_of_error ((checkScope_bare b r).trans hs)]
  | ok scope =>
    obtain ⟨res, hres⟩ := exists_resolution hs
    obtain ⟨scope', root, d, hscope, hd, rfl⟩ := resolve_eq_ok.mp hres
    obtain ⟨d', hd', hakin⟩ := draft_revise (b.setting r).veils_bare hd
    have hgraph : d.graph.outline = d'.graph.outline := congrArg Draft.graph hakin
    have hres' : b.bare.resolve r = .ok (b.bare.finish r scope' root d') :=
      resolve_eq_ok.mpr ⟨scope', root, d', (checkScope_bare b r).trans hscope, hd', rfl⟩
    have hchecksum : d.graph.checksum = d'.graph.checksum := by
      rw [← Graph.checksum_outline, hgraph, Graph.checksum_outline]
    rw [hres, hres']
    simp only [Except.map, Resolution.outline, finish, Graph.shareMrns_outline, hgraph, hchecksum]

/-- Bundles that differ in nothing but what is left out of the bare bundle give the same outline, or the
same error. -/
theorem resolve_outline (h : b.bare = b'.bare) (r : Request) :
    (b.resolve r).map Resolution.outline = (b'.resolve r).map Resolution.outline := by
  rw [← resolve_bare, h, resolve_bare]

end Bundle

def plainBundle : Bundle where
  policies := .ofList [{ mrn := "p", groups := [{ checks := [{ mrn := "x" }], riskFactors := [{ mrn := "k" }] }] }]
  frameworks := .ofList [{ mrn := "f", groups := [{ controls := ["c"] }] }]
  maps := [{ mrn := "m", framework := "f", policies := ["p"], controls := [{ mrn := "c", checks := [{ mrn := "x" }] }] }]
  queries := .ofList [{ mrn := "x", code := some { id := "cx" } }]
  riskFactors := .ofList [{ mrn := "k", checks := [{ mrn := "x" }] }]

def adornedBundle : Bundle where
  owner := "o"
  policies := .ofList [{
    mrn := "p", owner := "o", title := some "policy", scoring := .worst
    groups := [{ uid := some "g", checks := [{ mrn := "x" }], riskFactors := [{ mrn := "k", magnitude := some 2 }] }] }]
  frameworks := .ofList [{
    mrn := "f", title := some "framework", groups := [{ uid := some "g", controls := ["c"] }] }]
  maps := [{ mrn := "n", framework := "f", policies := ["p"], controls := [{ mrn := "c", checks := [{ mrn := "x" }] }] }]
  queries := .ofList [{
    mrn := "x", title := some "query", properties := [{ name := "n", mrn := "y" }]
    code := some { id := "cx", source := "true", entrypoints := ["e"], datapoints := ["d"] } }]
  riskFactors := .ofList [{ mrn := "k", title := some "risk", magnitude := 3, checks := [{ mrn := "x" }] }]

theorem adornedBundle_outline : plainBundle.bare = adornedBundle.bare ∧ ∃ out,
    (plainBundle.resolve (assetRequest ["p"])).map Resolution.outline = .ok out ∧
      (adornedBundle.resolve (assetRequest ["p"])).map Resolution.outline = .ok out := by
  have hb : plainBundle.bare = adornedBundle.bare := rfl
  have hs : (plainBundle.scope ["p"]).covers Keyed.empty = true := by decide +kernel
  obtain ⟨res, h⟩ := Bundle.exists_resolution (Bundle.checkScope_assetRequest hs)
  have hout : (plainBundle.resolve (assetRequest ["p"])).map Resolution.outline = .ok res.outline := by
    rw [h]
    rfl
  exact ⟨hb, res.outline, hout, (Bundle.resolve_outline hb (assetRequest ["p"])).symm.trans hout⟩

end Compliance
