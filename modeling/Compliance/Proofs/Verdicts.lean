import Compliance.Proofs.Filters

namespace Compliance

def Lists (l : List String) (P : String → Prop) : Prop := l.Pairwise (· < ·) ∧ ∀ k, k ∈ l ↔ P k

theorem NameSet.lists_iff {s : NameSet} {P : String → Prop} : Lists s.entries P ↔ ∀ k, k ∈ s ↔ P k :=
  and_iff_right s.ordered

namespace Bundle

variable (b : Bundle) (assigned : List Mrn)

/-- Neither actions nor dates, review or predicates keep a request from a policy. -/
inductive Spans : Policy → Prop
  | assigned {m : Mrn} {p : Policy} : m ∈ assigned → b.policies.find? m = some p → Spans p
  | included {p q : Policy} {g : PolicyGroup} {r : PolicyRef} : Spans p → g ∈ p.groups → g.type.isModifier = false →
    r ∈ g.policies → b.policies.find? r.mrn = some q → Spans q

inductive Poses : RiskFactor → Prop
  | group {p : Policy} {g : PolicyGroup} {r : RiskFactorRef} {f : RiskFactor} : b.Spans assigned p → g ∈ p.groups →
    g.type.isModifier = false → r ∈ g.riskFactors → b.riskFactors.find? r.mrn = some f → Poses f
  | policy {p : Policy} {r : RiskFactorRef} {f : RiskFactor} : b.Spans assigned p → r ∈ p.riskFactors →
    b.riskFactors.find? r.mrn = some f → Poses f

inductive Probes : Query → Prop
  | group {p : Policy} {g : PolicyGroup} {r : QueryRef} {q : Query} : b.Spans assigned p → g ∈ p.groups →
    g.type.isModifier = false → r ∈ g.checks ++ g.queries → b.queries.find? r.mrn = some q → Probes q
  | riskFactor {f : RiskFactor} {r : QueryRef} {q : Query} : b.Poses assigned f → r ∈ f.checks →
    b.queries.find? r.mrn = some q → Probes q

inductive Admits : List PredicateId → Prop
  | group {p : Policy} {g : PolicyGroup} : b.Spans assigned p → g ∈ p.groups → g.type.isModifier = false →
    Admits g.required
  | riskFactor {f : RiskFactor} : b.Poses assigned f → Admits f.required

inductive Asks (k : PredicateId) : Prop
  | gate {required : List PredicateId} : b.Admits assigned required → k ∈ required → Asks k
  | query {q : Query} : b.Probes assigned q → k ∈ q.required → Asks k
  | variant {q v : Query} {m : Mrn} : b.Probes assigned q → m ∈ q.variants → b.queries.find? m = some v →
    k ∈ v.required → Asks k

variable {b assigned} {p : Policy} {f : RiskFactor} {q : Query} {k : PredicateId} {required : List PredicateId}
  {r : Request}

theorem mem_declaredContent {g : PolicyGroup} : g ∈ p.declaredContent ↔ g ∈ p.groups ∧ g.type.isModifier = false := by
  simp [Policy.declaredContent]

theorem mem_hierarchy : p ∈ b.hierarchy assigned ↔ b.Spans assigned p := by
  refine mem_preorder_iff.trans ⟨fun h => ?_, fun h => ?_⟩
  · induction h with
    | named hm hp => exact .assigned hm hp
    | next _ hm hq ih =>
      obtain ⟨g, hg, hm⟩ := List.mem_flatMap.mp hm
      obtain ⟨r, hr, rfl⟩ := List.mem_map.mp hm
      obtain ⟨hg, hc⟩ := mem_declaredContent.mp hg
      exact .included ih hg hc hr hq
  · induction h with
    | assigned hm hp => exact .named hm hp
    | included _ hg hc hr hq ih =>
      exact .next ih (List.mem_flatMap.mpr ⟨_, mem_declaredContent.mpr ⟨hg, hc⟩, List.mem_map_of_mem hr⟩) hq

theorem poses_iff : b.Poses assigned f ↔ ∃ p, b.Spans assigned p ∧ f ∈ b.riskFactorsOf p := by
  constructor
  · intro h
    cases h with
    | @group p g r _ hp hg hc hr hf =>
      refine ⟨p, hp, List.mem_filterMap.mpr ⟨r, List.mem_append_left _ ?_, hf⟩⟩
      exact List.mem_flatMap.mpr ⟨g, mem_declaredContent.mpr ⟨hg, hc⟩, hr⟩
    | @policy p r _ hp hr hf => exact ⟨p, hp, List.mem_filterMap.mpr ⟨r, List.mem_append_right _ hr, hf⟩⟩
  · rintro ⟨p, hp, h⟩
    obtain ⟨r, hr, hf⟩ := List.mem_filterMap.mp h
    rcases List.mem_append.mp hr with hr | hr
    · obtain ⟨g, hg, hr⟩ := List.mem_flatMap.mp hr
      obtain ⟨hg, hc⟩ := mem_declaredContent.mp hg
      exact .group hp hg hc hr hf
    · exact .policy hp hr hf

theorem probes_iff : b.Probes assigned q ↔
    ∃ p, b.Spans assigned p ∧ ∃ m ∈ b.queriesOf p, b.queries.find? m = some q := by
  constructor
  · intro h
    cases h with
    | @group p g r _ hp hg hc hr hq =>
      refine ⟨p, hp, r.mrn, List.mem_append_left _ ?_, hq⟩
      exact List.mem_flatMap.mpr ⟨g, mem_declaredContent.mpr ⟨hg, hc⟩, List.mem_map_of_mem hr⟩
    | @riskFactor f r _ hf hr hq =>
      obtain ⟨p, hp, hf⟩ := poses_iff.mp hf
      exact ⟨p, hp, r.mrn, List.mem_append_right _ (List.mem_flatMap.mpr ⟨f, hf, List.mem_map_of_mem hr⟩), hq⟩
  · rintro ⟨p, hp, m, hm, hq⟩
    rcases List.mem_append.mp hm with hm | hm
    · obtain ⟨g, hg, hm⟩ := List.mem_flatMap.mp hm
      obtain ⟨r, hr, rfl⟩ := List.mem_map.mp hm
      obtain ⟨hg, hc⟩ := mem_declaredContent.mp hg
      exact .group hp hg hc hr hq
    · obtain ⟨f, hf, hm⟩ := List.mem_flatMap.mp hm
      obtain ⟨r, hr, rfl⟩ := List.mem_map.mp hm
      exact .riskFactor (poses_iff.mpr ⟨p, hp, hf⟩) hr hq

theorem admits_iff : b.Admits assigned required ↔ required ∈ (b.hierarchy assigned).flatMap b.gates := by
  simp only [List.mem_flatMap, mem_hierarchy, gates, List.mem_append, List.mem_map]
  constructor
  · intro h
    cases h with
    | @group p g hp hg hc => exact ⟨p, hp, .inl ⟨g, mem_declaredContent.mpr ⟨hg, hc⟩, rfl⟩⟩
    | @riskFactor f hf =>
      obtain ⟨p, hp, hf⟩ := poses_iff.mp hf
      exact ⟨p, hp, .inr ⟨f, hf, rfl⟩⟩
  · rintro ⟨p, hp, ⟨g, hg, rfl⟩ | ⟨f, hf, rfl⟩⟩
    · obtain ⟨hg, hc⟩ := mem_declaredContent.mp hg
      exact .group hp hg hc
    · exact .riskFactor (poses_iff.mpr ⟨p, hp, hf⟩)

theorem mem_narrowings {m : Mrn} : k ∈ b.narrowings m ↔ ∃ q, b.queries.find? m = some q ∧
    (k ∈ q.required ∨ ∃ n ∈ q.variants, ∃ v, b.queries.find? n = some v ∧ k ∈ v.required) := by
  unfold narrowings
  cases b.queries.find? m with
  | none => simp
  | some q =>
    simp only [List.mem_append, List.mem_flatMap, List.mem_filterMap, Option.some.injEq, exists_eq_left']
    apply or_congr_right
    constructor
    · rintro ⟨v, ⟨n, hn, hv⟩, hk⟩
      exact ⟨n, hn, v, hv, hk⟩
    · rintro ⟨n, hn, v, hv, hk⟩
      exact ⟨v, ⟨n, hn, hv⟩, hk⟩

theorem mem_declared : k ∈ (b.scope assigned).declared ↔ b.Asks assigned k := by
  simp only [scope, NameSet.mem_ofList, List.mem_append, List.mem_flatten, List.mem_flatMap, mem_hierarchy,
    mem_narrowings]
  constructor
  · rintro (⟨l, hl, hk⟩ | ⟨m, ⟨p, hp, hm⟩, q, hq, hk | ⟨n, hn, v, hv, hk⟩⟩)
    · exact .gate (admits_iff.mpr (by simpa [mem_hierarchy] using hl)) hk
    · exact .query (probes_iff.mpr ⟨p, hp, m, hm, hq⟩) hk
    · exact .variant (probes_iff.mpr ⟨p, hp, m, hm, hq⟩) hn hv hk
  · intro h
    cases h with
    | gate hl hk => exact .inl ⟨_, by simpa [mem_hierarchy] using admits_iff.mp hl, hk⟩
    | query hq hk =>
      obtain ⟨p, hp, m, hm, hq⟩ := probes_iff.mp hq
      exact .inr ⟨m, ⟨p, hp, hm⟩, _, hq, .inl hk⟩
    | @variant _ v n hq hn hv hk =>
      obtain ⟨p, hp, m, hm, hq⟩ := probes_iff.mp hq
      exact .inr ⟨m, ⟨p, hp, hm⟩, _, hq, .inr ⟨n, hn, v, hv, hk⟩⟩

theorem covers_iff {asset : PredicateSet} : (b.scope assigned).covers asset = true ↔
    b.Admits assigned [] ∨ ∃ k, b.Asks assigned k ∧ k ∈ asset := by
  have hgate : (b.scope assigned).unconditional = true ↔ b.Admits assigned [] := by
    simp only [scope, List.any_eq_true, List.isEmpty_iff, admits_iff]
    simp
  simp only [Scope.covers, Bool.or_eq_true, hgate, List.any_eq_true, NameSet.contains_iff, ← NameSet.mem_entries,
    mem_declared]

theorem resolve_eq_error {e : ResolveError} : b.resolve r = .error e ↔ b.checkScope r = .error e := by
  refine ⟨fun h => ?_, resolve_of_error⟩
  cases hs : b.checkScope r with
  | error e' =>
    obtain rfl := Except.error.inj ((resolve_of_error hs).symm.trans h)
    rfl
  | ok scope =>
    obtain ⟨res, hres⟩ := exists_resolution hs
    cases hres.symm.trans h

def Knows (b : Bundle) : Target → Prop
  | .policy m => ∃ p, b.policies.find? m = some p
  | .asset .. => True

theorem checkScope_of_knows (h : b.Knows r.target) : b.checkScope r =
    if (b.scope r.target.assigned).covers r.asset then .ok (b.scope r.target.assigned)
    else .error (.scopeMismatch (b.scope r.target.assigned).declared.entries r.asset.entries) := by
  unfold checkScope checkScope.covered
  cases ht : r.target with
  | asset asset policies frameworks => rfl
  | policy m =>
    rw [ht] at h
    obtain ⟨p, hp⟩ := h
    have hd : b.isDeclared m = true := by simp [isDeclared, Keyed.has, hp]
    simp only [hd, ↓reduceIte]

theorem checkScope_of_undeclared {m : Mrn} (ht : r.target = .policy m) (hp : b.policies.find? m = none) :
    b.checkScope r = .error (.policyNotFound m) := by
  have hd : b.isDeclared m = false := by simp [isDeclared, Keyed.has, hp]
  simp only [checkScope, ht, hd, Bool.false_eq_true, ↓reduceIte]

theorem knows_or_undeclared : b.Knows r.target ∨ ∃ m, r.target = .policy m ∧ b.policies.find? m = none := by
  cases ht : r.target with
  | asset asset policies frameworks => exact .inl trivial
  | policy m =>
    cases hp : b.policies.find? m with
    | none => exact .inr ⟨m, rfl, hp⟩
    | some p => exact .inl ⟨p, hp⟩

theorem not_knows {m : Mrn} (ht : r.target = .policy m) (hp : b.policies.find? m = none) : ¬b.Knows r.target := by
  rw [ht]
  rintro ⟨p, h⟩
  cases hp.symm.trans h

theorem resolve_eq_policyNotFound {m : Mrn} : b.resolve r = .error (.policyNotFound m) ↔
    r.target = .policy m ∧ b.policies.find? m = none := by
  rw [resolve_eq_error]
  refine ⟨fun h => ?_, fun h => checkScope_of_undeclared h.1 h.2⟩
  rcases knows_or_undeclared (b := b) (r := r) with hk | ⟨n, ht, hp⟩
  · rw [checkScope_of_knows hk] at h
    split at h <;> cases h
  · cases (checkScope_of_undeclared ht hp).symm.trans h
    exact ⟨ht, hp⟩

theorem resolve_eq_scopeMismatch {policy asset : List PredicateId} :
    b.resolve r = .error (.scopeMismatch policy asset) ↔ b.Knows r.target ∧
      ¬(b.scope r.target.assigned).covers r.asset ∧ (b.scope r.target.assigned).declared.entries = policy ∧
        r.asset.entries = asset := by
  rw [resolve_eq_error]
  rcases knows_or_undeclared (b := b) (r := r) with hk | ⟨n, ht, hp⟩
  · rw [checkScope_of_knows hk]
    split
    · simp_all
    · simp_all
  · simp [checkScope_of_undeclared ht hp, not_knows ht hp]

theorem exists_resolution_iff : (∃ res, b.resolve r = .ok res) ↔
    b.Knows r.target ∧ (b.scope r.target.assigned).covers r.asset = true := by
  constructor
  · rintro ⟨res, h⟩
    obtain ⟨scope, root, d, hs, -, -⟩ := resolve_eq_ok.mp h
    rcases knows_or_undeclared (b := b) (r := r) with hk | ⟨n, ht, hp⟩
    · rw [checkScope_of_knows hk] at hs
      split at hs
      · rename_i hc
        exact ⟨hk, hc⟩
      · cases hs
    · cases (checkScope_of_undeclared ht hp).symm.trans hs
  · rintro ⟨hk, hc⟩
    exact exists_resolution ((checkScope_of_knows hk).trans (if_pos hc))

end Bundle

/-- A request fails just when it is for an undeclared policy, or nothing that it spans lets the asset in. -/
theorem Bundle.resolve_verdict (b : Bundle) (r : Request) :
    (∀ m, b.resolve r = .error (.policyNotFound m) ↔ r.target = .policy m ∧ b.policies.find? m = none) ∧
    ((∃ policy asset, b.resolve r = .error (.scopeMismatch policy asset)) ↔ b.Knows r.target ∧
      ¬b.Admits r.target.assigned [] ∧ ∀ k, b.Asks r.target.assigned k → k ∉ r.asset) ∧
    (∀ policy asset, b.resolve r = .error (.scopeMismatch policy asset) →
      Lists policy (b.Asks r.target.assigned) ∧ Lists asset (· ∈ r.asset)) ∧
    ((∃ res, b.resolve r = .ok res) ↔ b.Knows r.target ∧
      (b.Admits r.target.assigned [] ∨ ∃ k, b.Asks r.target.assigned k ∧ k ∈ r.asset)) ∧
    ∀ res, b.resolve r = .ok res → Lists res.filters.entries fun k => b.Asks r.target.assigned k ∧ k ∈ r.asset := by
  refine ⟨fun m => resolve_eq_policyNotFound, ?_, ?_, ?_, ?_⟩
  · simp only [resolve_eq_scopeMismatch, covers_iff, exists_and_left, exists_eq', and_true, not_or, not_exists, not_and]
  · intro policy asset h
    obtain ⟨-, -, rfl, rfl⟩ := resolve_eq_scopeMismatch.mp h
    exact ⟨NameSet.lists_iff.mpr fun k => mem_declared, NameSet.lists_iff.mpr fun k => Iff.rfl⟩
  · rw [exists_resolution_iff, covers_iff]
  · intro res h
    rw [resolve_filters h, NameSet.lists_iff]
    intro k
    rw [Scope.mem_used, mem_declared]

end Compliance
