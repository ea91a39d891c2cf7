import Compliance.Proofs.Counterparts

/-!
The order of the modifier groups of a policy. Of the groups that name an entity the last one in force has its way, so
removal beats exception only where it comes last; and policies whose groups change places resolve the same if the last
words on each entity are the same.
-/

namespace Compliance

namespace Policy

section

variable (p : Policy) (asset : PredicateSet) (now : Timestamp)

def contentLayer (depth : Nat) : Layer where
  depth := depth
  owner := p.mrn
  changes := (p.contentGroups asset now).flatMap (·.contentChanges) ++ p.riskFactors.map RiskFactorRef.change

def namers (m : Mrn) : List PolicyGroup := (p.modifierGroups asset now).filter (·.targets.contains m)

def lastWord (m : Mrn) : Option Action := (p.namers asset now m).getLast?.map (·.modifierAction)

/-- No modifier groups name the entity both for removal and for exception. -/
def Agrees (m : Mrn) : Prop :=
  ∀ g ∈ p.namers asset now m, ∀ g' ∈ p.namers asset now m, g.modifierAction = g'.modifierAction

def ruling (m : Mrn) : Action := if (p.namers asset now m).all (·.type == .exception) then .ignore else .deactivate

end

variable {p p' : Policy} {asset : PredicateSet} {now : Timestamp} {m : Mrn} {depth : Nat}

theorem foldl_force {a : Action} (ha : ∀ b, a.orElse b = a) (targets : List Mrn) (c : Change) :
    (targets.filterMap fun n => if n = m then some ({ action := a } : Change) else none).foldl Change.then c =
      if m ∈ targets then { c with action := a } else c := by
  induction targets generalizing c with
  | nil => rfl
  | cons n rest ih =>
    by_cases hn : n = m
    · have hthen : c.then { action := a } = { c with action := a } := by simp [Change.then, ha]
      simp [hn, ih, hthen]
    · simp [hn, ih, Ne.symm hn]

theorem foldl_modifierChanges (groups : List PolicyGroup) (c : Change) :
    ((groups.flatMap (·.modifierChanges)).filterMap fun (n, c) => if n = m then some c else none).foldl Change.then c =
      { c with action := ((groups.filter (·.targets.contains m)).getLast?.map (·.modifierAction)).getD c.action } := by
  induction groups generalizing c with
  | nil => rfl
  | cons g rest ih =>
    have hspecified : ∀ a : Action, g.modifierAction.orElse a = g.modifierAction := by
      intro a
      unfold PolicyGroup.modifierAction
      split <;> rfl
    have hgroup : (g.modifierChanges.filterMap fun (n, c) => if n = m then some c else none) =
        g.targets.filterMap fun n => if n = m then some { action := g.modifierAction } else none := by
      rw [PolicyGroup.modifierChanges, List.filterMap_map]
      rfl
    rw [List.flatMap_cons, List.filterMap_append, List.foldl_append, hgroup, foldl_force hspecified, ih]
    by_cases hm : m ∈ g.targets
    -- the group has its way only if no later one names the entity
    · rw [if_pos hm, List.filter_cons_of_pos (by simpa using hm), List.getLast?_cons]
      cases (rest.filter (·.targets.contains m)).getLast? <;> rfl
    · rw [if_neg hm, List.filter_cons_of_neg (by simpa using hm)]

theorem layer_change : (p.layer asset now depth).change m = { (p.contentLayer asset now depth).change m with
    action := (p.lastWord asset now m).getD ((p.contentLayer asset now depth).change m).action } := by
  rw [Layer.change, layer, contentLayer, List.filterMap_append, List.foldl_append, foldl_modifierChanges]
  rfl

theorem lastWord_of_namers (h : p.namers asset now m ≠ []) : ∃ before g, p.namers asset now m = before ++ [g] ∧
    p.lastWord asset now m = some g.modifierAction := by
  refine ⟨_, _, (List.dropLast_append_getLast h).symm, ?_⟩
  rw [lastWord, List.getLast?_eq_some_getLast h, Option.map_some]

theorem layer_action (h : p.namers asset now m ≠ []) : ∃ before g, p.namers asset now m = before ++ [g] ∧
    ((p.layer asset now depth).change m).action = g.modifierAction ∧
    (((p.layer asset now depth).change m).action = p.ruling asset now m ↔
      (g.type = .exception → ∀ g' ∈ before, g'.type = .exception)) := by
  obtain ⟨before, g, hsplit, hlast⟩ := lastWord_of_namers h
  have haction : ((p.layer asset now depth).change m).action = g.modifierAction := by
    rw [layer_change, hlast]
    rfl
  refine ⟨before, g, hsplit, haction, ?_⟩
  rw [haction, ruling, hsplit, PolicyGroup.modifierAction, List.all_append, List.all_cons, List.all_nil, Bool.and_true]
  by_cases hg : g.type = .exception
  · simp [hg]
  · simp [hg]

end Policy

namespace Overrides

variable {o o' : Overrides}

def views (o : Overrides) : List (Nat × Mrn × (Mrn → Change)) := o.layers.map fun l => (l.depth, l.owner, l.change)

theorem action_of_views (h : o'.views = o.views) : o'.action = o.action := by
  have hdepth : ∀ (o : Overrides) m, o.depth? m = (o.views.find? fun v => v.2.1 == m).map (·.1) := by
    intro o m
    rw [depth?, views, List.find?_map, Option.map_map]
    rfl
  have hsees : ∀ (o : Overrides) referrer l, o.sees referrer l =
      (o.depth? referrer).all fun d => l.depth < d || l.owner == referrer := by
    intro o referrer l
    rw [sees]
    cases o.depth? referrer <;> rfl
  have hsaid : ∀ (o : Overrides) referrer m, o.said referrer m = (o.views.filter fun v =>
      (o.depth? referrer).all fun d => v.1 < d || v.2.1 == referrer).filterMap fun v =>
        if (v.2.2 m).action.isSpecified then some (v.1, (v.2.2 m).action) else none := by
    intro o referrer m
    rw [said, funext (hsees o referrer), views, List.filter_map, List.filterMap_map]
    rfl
  funext referrer m
  rw [action, hsaid, hdepth, h, action, hsaid, hdepth]

theorem findSome?_of_views {α : Type} (said : Change → Option α) (h : o'.views = o.views) (m : Mrn) :
    (o'.layers.findSome? fun l => said (l.change m)) = o.layers.findSome? fun l => said (l.change m) := by
  have hviews : ∀ o : Overrides,
      (o.layers.findSome? fun l => said (l.change m)) = o.views.findSome? fun v => said (v.2.2 m) := by
    intro o
    rw [views, List.findSome?_map]
    rfl
  rw [hviews, h, hviews]

theorem magnitude_of_views (h : o'.views = o.views) : o'.magnitude = o.magnitude :=
  funext fun m => findSome?_of_views (·.magnitude) h m

theorem scoring_of_views (h : o'.views = o.views) : o'.scoring = o.scoring :=
  funext fun m => findSome?_of_views (·.scoring) h m

end Overrides

structure Policy.Rearranges (p p' : Policy) : Prop where
  rest : p' = { p with groups := p'.groups }
  content : p'.groups.filter (!·.type.isModifier) = p.groups.filter (!·.type.isModifier)
  modifiers : (p'.groups.filter (·.type.isModifier)).Perm (p.groups.filter (·.type.isModifier))

namespace Policy.Rearranges

variable {p p' : Policy} {asset : PredicateSet} {now : Timestamp} {m : Mrn} (h : p.Rearranges p')
include h

theorem mrn : p'.mrn = p.mrn := by
  rw [h.rest]

theorem riskFactors : p'.riskFactors = p.riskFactors := by
  rw [h.rest]

theorem scoring : p'.scoring = p.scoring := by
  rw [h.rest]

theorem contentGroups : p'.contentGroups asset now = p.contentGroups asset now := by
  have hfilter : ∀ p : Policy, p.contentGroups asset now =
      (p.groups.filter (!·.type.isModifier)).filter (·.applies asset now) := by
    intro p
    rw [Policy.contentGroups, applicable, List.filter_filter, List.filter_filter]
    exact List.filter_congr fun g _ => Bool.and_comm _ _
  rw [hfilter, h.content, hfilter]

theorem namers : (p'.namers asset now m).Perm (p.namers asset now m) := by
  have hfilter : ∀ p : Policy, p.modifierGroups asset now =
      (p.groups.filter (·.type.isModifier)).filter (·.applies asset now) := by
    intro p
    rw [modifierGroups, applicable, List.filter_filter, List.filter_filter]
    exact List.filter_congr fun g _ => Bool.and_comm _ _
  rw [Policy.namers, Policy.namers, hfilter, hfilter]
  exact (h.modifiers.filter _).filter _

theorem references : p'.references asset now = p.references asset now := by
  rw [Policy.references, h.contentGroups, h.riskFactors, Policy.references]

theorem layer_change (hl : ∀ m, p'.lastWord asset now m = p.lastWord asset now m) (depth : Nat) :
    (p'.layer asset now depth).change = (p.layer asset now depth).change := by
  have hcontent : p'.contentLayer asset now depth = p.contentLayer asset now depth := by
    rw [contentLayer, h.contentGroups, h.riskFactors, h.mrn, contentLayer]
  funext m
  rw [Policy.layer_change, Policy.layer_change, hcontent, hl]

theorem lastWord (hs : p.Agrees asset now m) : p'.lastWord asset now m = p.lastWord asset now m := by
  by_cases hn : p.namers asset now m = []
  · have hn' : p'.namers asset now m = [] := (hn ▸ h.namers).eq_nil
    rw [Policy.lastWord, Policy.lastWord, hn, hn']
  · have hn' : p'.namers asset now m ≠ [] := fun he => hn (he ▸ h.namers).symm.eq_nil
    obtain ⟨before, g, hsplit, hlast⟩ := lastWord_of_namers hn
    obtain ⟨before', g', hsplit', hlast'⟩ := lastWord_of_namers hn'
    have hg : g ∈ p.namers asset now m := by simp [hsplit]
    have hg' : g' ∈ p.namers asset now m := h.namers.subset (by simp [hsplit'])
    rw [hlast, hlast', hs g hg g' hg']

end Policy.Rearranges

namespace Policy

variable {p : Policy} {asset : PredicateSet} {now : Timestamp} {m : Mrn} {g : PolicyGroup}

theorem rearranges_append {modifiers : List PolicyGroup} (h : modifiers.Perm (p.groups.filter (·.type.isModifier))) :
    p.Rearranges { p with groups := p.groups.filter (!·.type.isModifier) ++ modifiers } := by
  have hall : ∀ g ∈ modifiers, g.type.isModifier = true := fun g hg => (List.mem_filter.mp (h.subset hg)).2
  have hnone : modifiers.filter (!·.type.isModifier) = [] := List.filter_eq_nil_iff.mpr fun g hg => by simp [hall g hg]
  refine ⟨rfl, ?_, ?_⟩
  · rw [List.filter_append, hnone, List.append_nil, List.filter_filter]
    simp only [Bool.and_self]
  · have hcontent : (p.groups.filter (!·.type.isModifier)).filter (·.type.isModifier) = [] := by
      simp [List.filter_filter]
    rw [List.filter_append, hcontent, List.filter_eq_self.mpr hall]
    exact h

theorem exists_rearranged (hg : g ∈ p.namers asset now m) :
    ∃ p', p.Rearranges p' ∧ p'.lastWord asset now m = some g.modifierAction := by
  obtain ⟨hmod, hm⟩ := List.mem_filter.mp hg
  obtain ⟨happ, hmod⟩ := List.mem_filter.mp hmod
  obtain ⟨hgroup, happ⟩ := List.mem_filter.mp happ
  have hmem : g ∈ p.groups.filter (·.type.isModifier) := List.mem_filter.mpr ⟨hgroup, hmod⟩
  have hperm : ((p.groups.filter (·.type.isModifier)).erase g ++ [g]).Perm (p.groups.filter (·.type.isModifier)) :=
    List.perm_append_comm.trans (List.perm_cons_erase hmem).symm
  refine ⟨_, rearranges_append hperm, ?_⟩
  simp [lastWord, namers, modifierGroups, applicable, List.filter_append, hmod, happ, List.contains_iff_mem.mp hm]

theorem agrees_iff : p.Agrees asset now m ↔
    ∀ p', p.Rearranges p' → p'.lastWord asset now m = p.lastWord asset now m := by
  refine ⟨fun ha p' h => h.lastWord ha, fun h g hg g' hg' => ?_⟩
  obtain ⟨p', hp', hlast⟩ := exists_rearranged hg
  obtain ⟨p'', hp'', hlast'⟩ := exists_rearranged hg'
  rw [h p' hp'] at hlast
  rw [h p'' hp'', hlast] at hlast'
  exact Option.some.inj hlast'

end Policy

structure Rearrangement where
  policy : Policy → Policy
  rearranges : ∀ p : Policy, p.Rearranges (policy p)

namespace Bundle

variable {b : Bundle} {r : Request} {v : Rearrangement}

def rearrange (b : Bundle) (v : Rearrangement) : Bundle :=
  { b with policies := b.policies.map v.policy fun p => (v.rearranges p).mrn }

/-- Whatever has the last word in a policy that the walk meets has it in any order. -/
def Undisturbed (b : Bundle) (r : Request) (v : Rearrangement) : Prop :=
  ∀ p, (b.setting r).Walked r.target.assigned p → ∀ m, (v.policy p).lastWord r.asset r.now m = p.lastWord r.asset r.now m

theorem collect_views (h : b.Undisturbed r v) :
    ((b.rearrange v).setting r).overrides.views = (b.setting r).overrides.views := by
  have hfollows : Overrides.Follows r.asset r.now v.policy (fun o o' => o'.views = o.views) (fun _ => True)
      ((b.setting r).Walked r.target.assigned) := {
    mrn := fun p => (v.rearranges p).mrn
    leads := fun ho p m _ => Overrides.leads_congr (v.rearranges p).mrn (v.rearranges p).references
      (Overrides.action_of_views ho) m
    addLevel := fun level depth hw ho => by
      have hlevel : ∀ p ∈ level, ((v.policy p).layer r.asset r.now depth).change = (p.layer r.asset r.now depth).change :=
        fun p hp => (v.rearranges p).layer_change (h p (hw p hp)) depth
      rw [Overrides.views, Overrides.addLevel, List.map_append, ← Overrides.views, ho, Overrides.views, Overrides.views,
        Overrides.addLevel, List.map_append, List.map_map, List.map_map, List.map_map]
      refine congrArg _ (List.map_congr_left fun p hp => ?_)
      simp only [Function.comp_apply, hlevel p hp]
      exact congrArg (fun m => (depth, m, (p.layer r.asset r.now depth).change)) (v.rearranges p).mrn }
  refine hfollows.collect b (fun _ _ => trivial) (fun _ _ => .rfl) (fun p hp ho => ?_) rfl rfl
  obtain ⟨q, hq, hw⟩ := (Setting.mem_owners_iff (b.setting_collected r) p.mrn).mp ho
  have hp' : b.policies.find? q.mrn = some p := hq ▸ Keyed.find?_of_mem hp
  rwa [← Option.some.inj (hw.declared.symm.trans hp')]

theorem mirrors_rearrange (h : b.Undisturbed r v) :
    (b.setting r).Mirrors ((b.rearrange v).setting r) r.target.frameworks where
  asset := rfl
  now := rfl
  queries := rfl
  riskFactors := rfl
  maps := rfl
  action := Overrides.action_of_views (collect_views h)
  magnitude := Overrides.magnitude_of_views (collect_views h)
  scoring := Overrides.scoring_of_views (collect_views h)
  undeclared m hm := by
    have hm : b.policies.find? m = none := hm
    change (b.rearrange v).policies.find? m = none
    rw [rearrange, Keyed.find?_map, hm, Option.map_none]
  policies m p hm := by
    refine ⟨v.policy p, ?_, (v.rearranges p).mrn, (v.rearranges p).scoring, (v.rearranges p).references⟩
    have hm : b.policies.find? m = some p := hm
    change (b.rearrange v).policies.find? m = some (v.policy p)
    rw [rearrange, Keyed.find?_map, hm, Option.map_some]
  adopts f := by
    rw [← Setting.mem_adopting (s := (b.rearrange v).setting r), ← Setting.mem_adopting (s := b.setting r)]
    rfl

theorem exists_revision (v : Rearrangement) : ∃ v' : Revision, v'.KeepsScope ∧ ∀ b : Bundle, b.rearrange v = b.revise v' := by
  have hcontent : ∀ p, (v.policy p).declaredContent = p.declaredContent := fun p => (v.rearranges p).content
  have hmap : ∀ {α : Type} {key : α → String} (s : Keyed key) (hf : ∀ a, key (id a) = key a), s.map id hf = s :=
    fun s _ => Keyed.ext (List.map_id _)
  refine ⟨{ policy := v.policy, policy_mrn := fun p => (v.rearranges p).mrn }, ?_, fun b => ?_⟩
  · exact {
      leads := fun p => congrArg _ (hcontent p)
      gates := fun p => congrArg _ (hcontent p)
      asks := fun p => congrArg _ (hcontent p)
      risks := fun p => by
        change ((v.policy p).declaredContent.flatMap (·.riskFactors) ++ (v.policy p).riskFactors).map (·.mrn) = _
        rw [hcontent, (v.rearranges p).riskFactors]
      gate := fun _ => rfl
      probes := fun _ => rfl
      narrows := fun _ => rfl
      variants := fun _ => rfl }
  · simp only [rearrange, revise, hmap, List.map_id, id]

theorem rearrange_scope (b : Bundle) (v : Rearrangement) (assigned : List Mrn) :
    (b.rearrange v).scope assigned = b.scope assigned := by
  obtain ⟨v', hkeeps, hrevise⟩ := exists_revision v
  rw [hrevise]
  exact hkeeps.scope b assigned

theorem resolve_of_undisturbed (h : b.Undisturbed r v) : (b.rearrange v).resolve r = b.resolve r :=
  resolve_of_mirrors (mirrors_rearrange h) (rearrange_scope b v _)

/-- Modifier groups of a policy have their say in order, and the last of them has its way. Where the last words stay the
same, no order of groups changes a resolution. -/
theorem resolve_rearranged (b : Bundle) (r : Request) :
    (∀ (p : Policy) asset now depth m, p.namers asset now m ≠ [] → ∃ before g, p.namers asset now m = before ++ [g] ∧
      ((p.layer asset now depth).change m).action = g.modifierAction ∧
      (((p.layer asset now depth).change m).action = p.ruling asset now m ↔
        (g.type = .exception → ∀ g' ∈ before, g'.type = .exception))) ∧
    (∀ (p : Policy) asset now m, p.Agrees asset now m ↔
      ∀ p', p.Rearranges p' → p'.lastWord asset now m = p.lastWord asset now m) ∧
    (∀ v, b.Undisturbed r v → (b.rearrange v).resolve r = b.resolve r) ∧
    ((∀ p, (b.setting r).Walked r.target.assigned p → ∀ m, p.Agrees r.asset r.now m) →
      ∀ v, (b.rearrange v).resolve r = b.resolve r) := by
  refine ⟨fun p asset now depth m => Policy.layer_action, fun p asset now m => Policy.agrees_iff,
    fun v => resolve_of_undisturbed, fun h v => resolve_of_undisturbed fun p hp m => ?_⟩
  exact (v.rearranges p).lastWord (h p hp m)

end Bundle

def Rearrangement.reversed : Rearrangement where
  policy p := { p with groups := p.groups.filter (!·.type.isModifier) ++ (p.groups.filter (·.type.isModifier)).reverse }
  rearranges _ := Policy.rearranges_append (List.reverse_perm _)

def PolicyGroup.removing (m : Mrn) : PolicyGroup where
  type := .disable
  checks := [{ mrn := m }]

def PolicyGroup.excepting (m : Mrn) : PolicyGroup where
  type := .exception
  review := .accepted
  checks := [{ mrn := m }]

def modifiedPolicy (modifiers : List PolicyGroup) : Policy where
  mrn := "p"
  groups := { checks := [{ mrn := "x" }, { mrn := "y" }] } :: modifiers

def modifiedPolicyBundle (modifiers : List PolicyGroup) : Bundle where
  policies := .ofList [modifiedPolicy modifiers]
  queries := .ofList [{ mrn := "x", code := some { id := "cx" } }, { mrn := "y", code := some { id := "cy" } }]

theorem modifiedPolicyBundle_rearranged :
    Rearrangement.reversed.policy (modifiedPolicy [.removing "x", .excepting "y"]) =
      modifiedPolicy [.excepting "y", .removing "x"] ∧
    ((modifiedPolicyBundle [.removing "x", .excepting "y"]).rearrange .reversed).resolve (policyRequest "p") =
      (modifiedPolicyBundle [.removing "x", .excepting "y"]).resolve (policyRequest "p") := by
  obtain ⟨-, -, -, hall⟩ :=
    Bundle.resolve_rearranged (modifiedPolicyBundle [.removing "x", .excepting "y"]) (policyRequest "p")
  refine ⟨by decide +kernel, hall (fun p hp m g hg g' hg' => ?_) .reversed⟩
  have hentries : ∀ p ∈ (modifiedPolicyBundle [.removing "x", .excepting "y"]).policies.entries,
      ∀ g ∈ p.modifierGroups Keyed.empty 1700000000, ∀ g' ∈ p.modifierGroups Keyed.empty 1700000000,
        ∀ m ∈ g.targets, m ∈ g'.targets → g.modifierAction = g'.modifierAction := by decide +kernel
  obtain ⟨hg, hm⟩ := List.mem_filter.mp hg
  obtain ⟨hg', hm'⟩ := List.mem_filter.mp hg'
  exact hentries p (Keyed.mem_of_find? hp.declared) g hg g' hg' m (List.contains_iff_mem.mp hm)
    (List.contains_iff_mem.mp hm')

theorem modifiedPolicyBundle_order_matters :
    (modifiedPolicy [.removing "x", .excepting "x"]).Rearranges (modifiedPolicy [.excepting "x", .removing "x"]) ∧
    (((modifiedPolicy [.removing "x", .excepting "x"]).layer Keyed.empty 1700000000 0).change "x").action = .ignore ∧
    (((modifiedPolicy [.excepting "x", .removing "x"]).layer Keyed.empty 1700000000 0).change "x").action = .deactivate ∧
    ∃ res res', (modifiedPolicyBundle [.removing "x", .excepting "x"]).resolve (policyRequest "p") = .ok res ∧
      (modifiedPolicyBundle [.excepting "x", .removing "x"]).resolve (policyRequest "p") = .ok res' ∧
      res.graph.Has (.code "cx") ∧ ¬res'.graph.Has (.code "cx") := by
  have hp : (modifiedPolicyBundle [.removing "x", .excepting "x"]).policies.find? "p" =
      some (modifiedPolicy [.removing "x", .excepting "x"]) := by decide +kernel
  have hs : ((modifiedPolicyBundle [.removing "x", .excepting "x"]).scope ["p"]).covers Keyed.empty = true := by
    decide +kernel
  have hp' : (modifiedPolicyBundle [.excepting "x", .removing "x"]).policies.find? "p" =
      some (modifiedPolicy [.excepting "x", .removing "x"]) := by decide +kernel
  have hs' : ((modifiedPolicyBundle [.excepting "x", .removing "x"]).scope ["p"]).covers Keyed.empty = true := by
    decide +kernel
  refine ⟨⟨rfl, rfl, .swap _ _ _⟩, by decide +kernel, by decide +kernel, _, _,
    Bundle.resolve_policyRequest hp hs, Bundle.resolve_policyRequest hp' hs', ?_, ?_⟩
  · decide +kernel
  · decide +kernel

end Compliance
