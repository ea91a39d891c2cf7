import Compliance.Proofs.Lockstep

namespace Compliance

namespace Bundle

def declares (b : Bundle) (m : Mrn) : Bool :=
  b.policies.has m || b.frameworks.has m || b.queries.has m || b.riskFactors.has m

variable {b : Bundle} {m : Mrn}

theorem declares_eq_false : b.declares m = false ↔ b.policies.find? m = none ∧ b.frameworks.find? m = none ∧
    b.queries.find? m = none ∧ b.riskFactors.find? m = none := by
  simp [declares, Keyed.has, and_assoc]

theorem declares_policy {p : Policy} (h : b.policies.find? m = some p) : b.declares m = true := by
  simp [declares, Keyed.has, h]

theorem declares_framework {f : Framework} (h : b.frameworks.find? m = some f) : b.declares m = true := by
  simp [declares, Keyed.has, h]

theorem declares_query {q : Query} (h : q ∈ b.queries.entries) : b.declares q.mrn = true := by
  simp [declares, Keyed.has, Keyed.find?_of_mem h]

end Bundle

def Reference.mrn : Reference → Mrn
  | query _ r => r.mrn
  | policy r => r.mrn
  | riskFactor m => m

section

variable (keep : Mrn → Bool)

def PolicyGroup.prune (g : PolicyGroup) : PolicyGroup :=
  { g with
    checks := g.checks.filter (keep ·.mrn)
    queries := g.queries.filter (keep ·.mrn)
    policies := g.policies.filter (keep ·.mrn)
    riskFactors := g.riskFactors.filter (keep ·.mrn) }

def Policy.prune (p : Policy) : Policy :=
  { p with groups := p.groups.map (·.prune keep), riskFactors := p.riskFactors.filter (keep ·.mrn) }

def RiskFactor.prune (k : RiskFactor) : RiskFactor := { k with checks := k.checks.filter (keep ·.mrn) }

def Query.prune (q : Query) : Query := { q with properties := q.properties.filter (keep ·.mrn) }

def Framework.prune (f : Framework) : Framework := { f with dependencies := f.dependencies.filter (keep ·.mrn) }

def ControlMap.prune (c : ControlMap) : ControlMap :=
  { c with checks := c.checks.filter (keep ·.mrn), queries := c.queries.filter (keep ·.mrn) }

def FrameworkMap.prune (m : FrameworkMap) : FrameworkMap := { m with controls := m.controls.map (·.prune keep) }

def Revision.pruning : Revision where
  policy := Policy.prune keep
  framework := Framework.prune keep
  map := FrameworkMap.prune keep
  query := Query.prune keep
  riskFactor := RiskFactor.prune keep

def Layer.prune (l : Layer) : Layer := { l with changes := l.changes.filter (keep ·.1) }

def Target.prune : Target → Target
  | policy m => .policy m
  | asset a policies frameworks => .asset a (policies.filter keep) (frameworks.filter keep)

def Request.prune (r : Request) : Request := { r with target := r.target.prune keep }

end

def Bundle.prune (b : Bundle) : Bundle := b.revise (.pruning b.declares)

section

variable {keep : Mrn → Bool} {asset : PredicateSet} {now : Timestamp} {m : Mrn}

theorem Target.mem_assigned_prune (t : Target) (h : keep m = true) : m ∈ (t.prune keep).assigned ↔ m ∈ t.assigned := by
  cases t <;> simp [prune, assigned, h]

namespace Policy

variable (p : Policy)

theorem contentGroups_prune :
    (p.prune keep).contentGroups asset now = (p.contentGroups asset now).map (·.prune keep) := by
  simp only [contentGroups, applicable, prune, List.filter_map]
  rfl

theorem modifierGroups_prune :
    (p.prune keep).modifierGroups asset now = (p.modifierGroups asset now).map (·.prune keep) := by
  simp only [modifierGroups, applicable, prune, List.filter_map]
  rfl

theorem declaredContent_prune : (p.prune keep).declaredContent = p.declaredContent.map (·.prune keep) := by
  simp only [declaredContent, prune, List.filter_map]
  rfl

theorem references_prune : (p.prune keep).references asset now = (p.references asset now).filter (keep ·.mrn) := by
  have hgroup : ∀ g : PolicyGroup, (g.prune keep).references = g.references.filter (keep ·.mrn) := by
    intro g
    simp [PolicyGroup.references, PolicyGroup.prune, List.filter_map, Function.comp_def, Reference.mrn]
  simp only [references, contentGroups_prune, List.flatMap_map, hgroup, List.filter_append, List.filter_flatMap,
    List.filter_map]
  rfl

theorem layer_prune (depth : Nat) : (p.prune keep).layer asset now depth = (p.layer asset now depth).prune keep := by
  have hcontent : ∀ g : PolicyGroup, (g.prune keep).contentChanges = g.contentChanges.filter (keep ·.1) := by
    intro g
    simp [PolicyGroup.contentChanges, PolicyGroup.prune, List.filter_map, Function.comp_def, QueryRef.change,
      PolicyRef.change, RiskFactorRef.change]
  have hmodifier : ∀ g : PolicyGroup, (g.prune keep).modifierChanges = g.modifierChanges.filter (keep ·.1) := by
    intro g
    have htargets : (g.prune keep).targets = g.targets.filter keep := by
      simp [PolicyGroup.targets, PolicyGroup.prune, List.filter_map, Function.comp_def]
    rw [PolicyGroup.modifierChanges, htargets, PolicyGroup.modifierChanges, List.filter_map]
    rfl
  simp only [layer, Layer.prune, contentGroups_prune, modifierGroups_prune, List.flatMap_map, hcontent, hmodifier,
    List.filter_append, List.filter_flatMap]
  simp [prune, List.filter_map, Function.comp_def, RiskFactorRef.change]

end Policy

theorem Framework.next_prune (f : Framework) :
    (((f.prune keep).dependencies.filter (·.action != .deactivate)).map (·.mrn)) =
      ((f.dependencies.filter (·.action != .deactivate)).map (·.mrn)).filter keep := by
  simp only [prune, List.filter_map, List.filter_filter]
  exact congrArg _ (List.filter_congr fun _ _ => Bool.and_comm _ _)

theorem Layer.change_prune (l : Layer) (h : keep m = true) : (l.prune keep).change m = l.change m := by
  rw [change, prune, List.filterMap_filter, change]
  refine congrArg (List.foldl Change.then {}) (List.filterMap_congr fun x _ => ?_)
  obtain ⟨n, c⟩ := x
  by_cases hn : n = m
  · simp [hn, h]
  · simp [hn]

theorem Layer.change_pruned (l : Layer) (h : keep m = false) : (l.prune keep).change m = {} := by
  rw [change, List.filterMap_eq_nil_iff.mpr fun x hx => ?_, List.foldl_nil]
  have hk : keep x.1 = true := (List.mem_filter.mp hx).2
  exact if_neg fun he => by simp [← he, hk] at h

namespace Overrides

variable (o : Overrides)

theorem action_prune (h : keep m = true) (referrer : Mrn) :
    (o.map (Layer.prune keep)).action referrer m = o.action referrer m := by
  have hdepth : ∀ l : Layer, (l.prune keep).depth = l.depth := fun _ => rfl
  have howner : ∀ l : Layer, (l.prune keep).owner = l.owner := fun _ => rfl
  have hsays : ∀ l : Layer, (l.prune keep).says? m = l.says? m := by
    intro l
    rw [Layer.says?, Layer.change_prune l h]
    rfl
  exact action_map hdepth howner hsays o referrer

theorem action_pruned (h : keep m = false) (referrer : Mrn) :
    (o.map (Layer.prune keep)).action referrer m = .unspecified := by
  have hsaid : (o.map (Layer.prune keep)).said referrer m = [] := by
    refine List.filterMap_eq_nil_iff.mpr fun l hl => ?_
    obtain ⟨l, -, rfl⟩ := List.mem_map.mp (List.mem_filter.mp hl).1
    rw [Layer.says?, Layer.change_pruned l h]
    rfl
  rw [action, hsaid, verdict]

theorem effective_prune (h : keep m = true) (referrer : Mrn) (declared : Action) :
    (o.map (Layer.prune keep)).effective referrer m declared = o.effective referrer m declared := by
  rw [effective, action_prune o h, effective]

theorem magnitude_prune (h : keep m = true) : (o.map (Layer.prune keep)).magnitude m = o.magnitude m := by
  simp only [magnitude, map, List.findSome?_map, Function.comp_def, Layer.change_prune _ h]

theorem scoring_prune (h : keep m = true) : (o.map (Layer.prune keep)).scoring m = o.scoring m := by
  simp only [scoring, map, List.findSome?_map, Function.comp_def, Layer.change_prune _ h]

theorem leads_prune (p : Policy) (h : keep m = true) :
    (o.map (Layer.prune keep)).leads asset now (p.prune keep) m = o.leads asset now p m := by
  rw [leads_eq_references, leads_eq_references, Policy.references_prune, List.any_filter]
  refine congrArg (List.any _) (funext fun x => ?_)
  cases x with
  | policy r =>
    by_cases hr : r.mrn = m
    · simp [hr, h, effective_prune o h, Reference.mrn, Policy.prune]
    · have hne : (r.mrn == m) = false := beq_eq_false_iff_ne.mpr hr
      simp [hne]
  | _ => simp

theorem follows_prune : Follows asset now (Policy.prune keep) (fun o o' => o' = o.map (Layer.prune keep))
    (keep · = true) fun _ => True where
  mrn _ := rfl
  leads hr p _ hm := hr ▸ leads_prune _ p hm
  addLevel level depth _ hr := by
    simp [hr, addLevel, map, Policy.layer_prune]

end Overrides

end

namespace Bundle

variable (b : Bundle) (r : Request)

theorem find?_policies_prune (m : Mrn) : b.prune.policies.find? m = (b.policies.find? m).map (Policy.prune b.declares) := by
  rw [prune, revise, Keyed.find?_map]
  rfl

theorem find?_frameworks_prune (m : Mrn) :
    b.prune.frameworks.find? m = (b.frameworks.find? m).map (Framework.prune b.declares) := by
  rw [prune, revise, Keyed.find?_map]
  rfl

theorem find?_queries_prune (m : Mrn) : b.prune.queries.find? m = (b.queries.find? m).map (Query.prune b.declares) := by
  rw [prune, revise, Keyed.find?_map]
  rfl

theorem find?_riskFactors_prune (m : Mrn) :
    b.prune.riskFactors.find? m = (b.riskFactors.find? m).map (RiskFactor.prune b.declares) := by
  rw [prune, revise, Keyed.find?_map]
  rfl

theorem setting_prune : b.prune.setting (r.prune b.declares) =
    (b.setting r).revise (.pruning b.declares) (Layer.prune b.declares) := by
  have hcollect : Overrides.collect b.prune r.asset r.now (r.target.prune b.declares).assigned =
      (Overrides.collect b r.asset r.now r.target.assigned).map (Layer.prune b.declares) :=
    Overrides.follows_prune.collect b (fun p hp => declares_policy (Keyed.find?_of_mem hp))
      (fun _ => r.target.mem_assigned_prune) (fun _ _ _ => trivial) rfl rfl
  simp only [setting, Request.prune, hcollect]
  rfl

variable {b}

theorem hierarchy_prune (assigned : List Mrn) :
    b.prune.hierarchy (assigned.filter b.declares) = (b.hierarchy assigned).map (Policy.prune b.declares) := by
  have hnext : ∀ p : Policy, ((p.prune b.declares).declaredContent.flatMap fun g => g.policies.map (·.mrn)) =
      (p.declaredContent.flatMap fun g => g.policies.map (·.mrn)).filter b.declares := by
    intro p
    simp only [Policy.declaredContent_prune, List.flatMap_map, List.filter_flatMap, List.filter_map]
    rfl
  rw [hierarchy, hierarchy]
  have hmrn := (Revision.pruning b.declares).policy_mrn
  exact filterMap_preorder_prune hmrn hmrn hnext (fun _ h => (declares_eq_false.mp h).1) [] assigned

theorem riskFactorsOf_prune (p : Policy) :
    b.prune.riskFactorsOf (p.prune b.declares) = (b.riskFactorsOf p).map (RiskFactor.prune b.declares) := by
  have hfind : ∀ l : List RiskFactorRef, (l.filter (b.declares ·.mrn)).filterMap (fun r => b.prune.riskFactors.find? r.mrn) =
      (l.filterMap fun r => b.riskFactors.find? r.mrn).map (RiskFactor.prune b.declares) := by
    intro l
    rw [List.filterMap_filter, List.map_filterMap]
    refine List.filterMap_congr fun r _ => ?_
    rw [find?_riskFactors_prune]
    cases hr : b.declares r.mrn with
    | false => simp [(declares_eq_false.mp hr).2.2.2]
    | true => rfl
  have hgroup : ∀ g : PolicyGroup, (g.prune b.declares).riskFactors = g.riskFactors.filter (b.declares ·.mrn) := fun _ => rfl
  rw [riskFactorsOf, Policy.declaredContent_prune, List.flatMap_map]
  simp only [hgroup, ← List.filter_flatMap]
  rw [Policy.prune, ← List.filter_append, hfind, riskFactorsOf]

theorem gates_prune (p : Policy) : b.prune.gates (p.prune b.declares) = b.gates p := by
  simp only [gates, Policy.declaredContent_prune, riskFactorsOf_prune, List.map_map]
  rfl

theorem queriesOf_prune (p : Policy) : b.prune.queriesOf (p.prune b.declares) = (b.queriesOf p).filter b.declares := by
  simp only [queriesOf, Policy.declaredContent_prune, riskFactorsOf_prune, List.flatMap_map, List.filter_append,
    List.filter_flatMap]
  simp [PolicyGroup.prune, RiskFactor.prune, List.filter_map, Function.comp_def]

theorem scope_prune (assigned : List Mrn) : b.prune.scope (assigned.filter b.declares) = b.scope assigned := by
  have hnarrow : ∀ l : List Mrn, (l.filter b.declares).flatMap b.narrowings = l.flatMap b.narrowings := by
    intro l
    induction l with
    | nil => rfl
    | cons m rest ih =>
      cases hm : b.declares m with
      | true => rw [List.filter_cons_of_pos hm, List.flatMap_cons, ih, List.flatMap_cons]
      | false =>
        have hnone : b.narrowings m = [] := by rw [narrowings, (declares_eq_false.mp hm).2.2.1]
        rw [List.filter_cons_of_neg (by simp [hm]), ih, List.flatMap_cons, hnone, List.nil_append]
  have hsame : b.prune.narrowings = b.narrowings := funext (b.narrowings_revise (fun _ => rfl) fun _ => rfl)
  simp only [scope, hierarchy_prune, List.flatMap_map, gates_prune, queriesOf_prune, hsame]
  rw [← List.filter_flatMap, hnarrow]

end Bundle

end Compliance
