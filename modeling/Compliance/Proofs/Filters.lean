import Compliance.Proofs.Preorder
import Compliance.Proofs.Readings
import Compliance.Proofs.Rooted

/-!
The filters of a resolution are all that it rests on, but for the requirements that the probe passes
over: those of modifier groups, and those of variants further down than the first.
-/

namespace Compliance

namespace Scope

variable {s : Scope} {asset asset' : PredicateSet} {required : List PredicateId}

theorem mem_used {k : PredicateId} : k ∈ s.used asset ↔ k ∈ s.declared ∧ k ∈ asset := by
  simp [used]

theorem used_used : s.used (s.used asset) = s.used asset := by
  apply Keyed.ext_mem
  intro k
  rw [← NameSet.mem_entries, ← NameSet.mem_entries, mem_used, mem_used]
  tauto

theorem covers_congr (h : s.used asset' = s.used asset) : s.covers asset' = s.covers asset := by
  have hmem : ∀ k ∈ s.declared.entries, NameSet.contains asset' k = NameSet.contains asset k := by
    intro k hk
    have hiff : k ∈ s.used asset' ↔ k ∈ s.used asset := by rw [h]
    rw [mem_used, mem_used, and_congr_right_iff] at hiff
    rw [Bool.eq_iff_iff, NameSet.contains_iff, NameSet.contains_iff]
    exact hiff hk
  rw [covers, covers, Bool.eq_iff_iff]
  simp only [Bool.or_eq_true, List.any_eq_true]
  apply or_congr_right
  apply exists_congr
  intro k
  apply and_congr_right
  intro hk
  rw [hmem k hk]

theorem meets_used (h : ∀ k ∈ required, k ∈ s.declared) : (s.used asset).meets required = asset.meets required := by
  rw [PredicateSet.meets, PredicateSet.meets, Bool.eq_iff_iff]
  simp only [Bool.or_eq_true, List.any_eq_true, NameSet.contains_iff, mem_used]
  apply or_congr_right
  apply exists_congr
  intro k
  apply and_congr_right
  intro hk
  simp [h k hk]

end Scope

namespace Setting

variable (s : Setting) (roots : List Mrn)

/-- The requirement lists that are held against the asset and that the probe passes over. -/
inductive Overlooked : List PredicateId → Prop
  | modifier {p : Policy} {g : PolicyGroup} : s.Walked roots p → g ∈ p.groups → g.inForce s.now = true →
    g.type.isModifier = true → Overlooked g.required
  | variant {q e v : Query} : s.Sought roots q → s.asset.meets q.required = true →
    Relation.TransGen s.Enters q e → s.Tries e v → Overlooked v.required

variable {s roots} {p : Policy} {q v : Query} {required : List PredicateId}

theorem mem_declaredContent {g : PolicyGroup} (hg : g ∈ p.contentGroups s.asset s.now) : g ∈ p.declaredContent := by
  obtain ⟨hg, hc⟩ := List.mem_filter.mp hg
  exact List.mem_filter.mpr ⟨(List.mem_filter.mp hg).1, hc⟩

theorem Walked.mem_hierarchy (h : s.Walked roots p) : p ∈ s.bundle.hierarchy roots := by
  apply mem_preorder_iff.mpr
  induction h with
  | root hm hp => exact .named hm hp
  | @included p q _ hi ih =>
    obtain ⟨g, hg, r, hr, -, hq⟩ := hi
    exact .next ih (List.mem_flatMap.mpr ⟨g, mem_declaredContent hg, List.mem_map_of_mem hr⟩) hq

theorem mem_riskFactorsOf {f : RiskFactorRef} {k : RiskFactor} (hf : f ∈ p.riskReferences s.asset s.now)
    (hk : s.bundle.riskFactors.find? f.mrn = some k) : k ∈ s.bundle.riskFactorsOf p := by
  refine List.mem_filterMap.mpr ⟨f, ?_, hk⟩
  rcases List.mem_append.mp hf with hf | hf
  · obtain ⟨g, hg, hf⟩ := List.mem_flatMap.mp hf
    exact List.mem_append_left _ (List.mem_flatMap.mpr ⟨g, mem_declaredContent hg, hf⟩)
  · exact List.mem_append_right _ hf

theorem declared_of_gate (hp : s.Walked roots p) (h : required ∈ s.bundle.gates p) :
    ∀ k ∈ required, k ∈ (s.bundle.scope roots).declared := by
  intro k hk
  apply NameSet.mem_ofList.mpr
  exact List.mem_append_left _ (List.mem_flatten.mpr ⟨required, List.mem_flatMap.mpr ⟨p, hp.mem_hierarchy, h⟩, hk⟩)

theorem Sought.mem_queriesOf (h : s.Sought roots q) : ∃ p, s.Walked roots p ∧ q.mrn ∈ s.bundle.queriesOf p := by
  cases h with
  | @policy p g role r _ hp hg hr _ hq =>
    rw [Keyed.key_of_find? hq]
    refine ⟨p, hp, List.mem_append_left _ (List.mem_flatMap.mpr ⟨g, mem_declaredContent hg, ?_⟩)⟩
    apply List.mem_map_of_mem
    cases role with
    | check => exact List.mem_append_left _ hr
    | data => exact List.mem_append_right _ hr
  | @riskFactor p f k r _ hp hf hk _ hr _ hq =>
    rw [Keyed.key_of_find? hq]
    refine ⟨p, hp, List.mem_append_right _ (List.mem_flatMap.mpr ⟨k, mem_riskFactorsOf hf hk, ?_⟩)⟩
    exact List.mem_map_of_mem hr

theorem Sought.declared (h : s.Sought roots q) : s.bundle.queries.find? q.mrn = some q := by
  cases h with
  | policy _ _ _ _ hq => rwa [Keyed.key_of_find? hq]
  | riskFactor _ _ _ _ _ _ hq => rwa [Keyed.key_of_find? hq]

theorem declared_of_narrowing (h : s.Sought roots q) (hr : ∀ k ∈ required, k ∈ s.bundle.narrowings q.mrn) :
    ∀ k ∈ required, k ∈ (s.bundle.scope roots).declared := by
  intro k hk
  obtain ⟨p, hp, hm⟩ := h.mem_queriesOf
  apply NameSet.mem_ofList.mpr
  apply List.mem_append_right
  exact List.mem_flatMap.mpr ⟨q.mrn, List.mem_flatMap.mpr ⟨p, hp.mem_hierarchy, hm⟩, hr k hk⟩

theorem Reads.declared (h : s.Reads roots required) :
    s.Overlooked roots required ∨ ∀ k ∈ required, k ∈ (s.bundle.scope roots).declared := by
  cases h with
  | @group p g hp hg hf =>
    cases hc : g.type.isModifier with
    | true => exact .inl (.modifier hp hg hf hc)
    | false =>
      refine .inr (declared_of_gate hp (List.mem_append_left _ (List.mem_map_of_mem ?_)))
      exact List.mem_filter.mpr ⟨hg, by simp [hc]⟩
  | riskFactor hp hf hk =>
    exact .inr (declared_of_gate hp (List.mem_append_right _ (List.mem_map_of_mem (mem_riskFactorsOf hf hk))))
  | query hq =>
    refine .inr (declared_of_narrowing hq fun k hk => ?_)
    rw [Bundle.narrowings, hq.declared]
    exact List.mem_append_left _ hk
  | @variant q e v hq hm he hv =>
    rcases Relation.reflTransGen_iff_eq_or_transGen.mp he with rfl | he
    · obtain ⟨m, hmv, -, hf⟩ := hv
      refine .inr (declared_of_narrowing hq fun k hk => ?_)
      rw [Bundle.narrowings, hq.declared]
      exact List.mem_append_right _ (List.mem_flatMap.mpr ⟨v, List.mem_filterMap.mpr ⟨m, hmv, hf⟩, hk⟩)
    · exact .inl (.variant hq hm he hv)

end Setting

namespace Bundle

variable {b : Bundle} {r : Request} {res : Resolution} {asset : PredicateSet}

theorem checkScope_eq_ok {scope : Scope} (h : b.checkScope r = .ok scope) : scope = b.scope r.target.assigned := by
  unfold checkScope checkScope.covered at h
  grind

theorem checkScope_congr (h : (b.scope r.target.assigned).used asset = (b.scope r.target.assigned).used r.asset)
    {scope : Scope} (hs : b.checkScope r = .ok scope) : b.checkScope { r with asset := asset } = .ok scope := by
  have hc := Scope.covers_congr h
  unfold checkScope checkScope.covered at hs ⊢
  grind

theorem resolve_filters (h : b.resolve r = .ok res) : res.filters = (b.scope r.target.assigned).used r.asset := by
  obtain ⟨scope, root, d, hs, -, rfl⟩ := resolve_eq_ok.mp h
  rw [← checkScope_eq_ok hs]
  rfl

theorem resolve_congr (h : b.resolve r = .ok res) (hf : (b.scope r.target.assigned).used asset = res.filters)
    (ho : ∀ required, (b.setting r).Overlooked r.target.assigned required → asset.meets required = r.asset.meets required) :
    b.resolve { r with asset := asset } = .ok res := by
  obtain ⟨scope, root, d, hs, hd, rfl⟩ := resolve_eq_ok.mp h
  obtain rfl := checkScope_eq_ok hs
  have hu : (b.scope r.target.assigned).used asset = (b.scope r.target.assigned).used r.asset := hf
  have ha : (b.setting r).Answers r.target.assigned asset := by
    intro required hr
    rcases hr.declared with hov | hdec
    · exact ho required hov
    · calc asset.meets required = ((b.scope r.target.assigned).used asset).meets required := (Scope.meets_used hdec).symm
        _ = ((b.scope r.target.assigned).used r.asset).meets required := by rw [hu]
        _ = r.asset.meets required := Scope.meets_used hdec
  refine resolve_eq_ok.mpr ⟨_, root, d, checkScope_congr hu hs, ?_, ?_⟩
  · rw [draft_congr ha, hd]
  · simp only [finish, hu]

/-- The filters of a resolution capture what it read from the asset, save what the probe passes over. -/
theorem resolve_rests_on_filters (h : b.resolve r = .ok res) :
    ((∀ required, (b.setting r).Overlooked r.target.assigned required →
        res.filters.meets required = r.asset.meets required) →
      b.resolve { r with asset := res.filters } = .ok res) ∧
    ∀ asset res', b.resolve { r with asset := asset } = .ok res' → res'.filters = res.filters →
      (∀ required, (b.setting r).Overlooked r.target.assigned required → asset.meets required = r.asset.meets required) →
        res' = res := by
  constructor
  · intro ho
    refine resolve_congr h ?_ ho
    rw [resolve_filters h, Scope.used_used]
  · intro asset res' h' he ho
    have hu : (b.scope r.target.assigned).used asset = res.filters := (resolve_filters h').symm.trans he
    exact Except.ok.inj (h'.symm.trans (resolve_congr h hu ho))

/-- There is nothing to pass over: modifier groups ask for nothing, and variants have none themselves. -/
def Plain (b : Bundle) : Prop :=
  (∀ p ∈ b.policies.entries, ∀ g ∈ p.groups, g.type.isModifier = true → g.required = []) ∧
    ∀ q ∈ b.queries.entries, ∀ v ∈ b.queries.entries, v.mrn ∈ q.variants → v.variants = []

instance (b : Bundle) : Decidable b.Plain := inferInstanceAs (Decidable (_ ∧ _))

theorem Plain.meets (hb : b.Plain) {required : List PredicateId}
    (h : (b.setting r).Overlooked r.target.assigned required) (asset : PredicateSet) : asset.meets required = true := by
  cases h with
  | @modifier p g hp hg _ hm =>
    rw [hb.1 p (Keyed.mem_of_find? hp.declared) g hg hm]
    rfl
  | @variant q e v hq _ he hv =>
    have found : ∀ {q v}, (b.setting r).Tries q v → v ∈ b.queries.entries ∧ v.mrn ∈ q.variants := by
      rintro q v ⟨m, hm, -, hf⟩
      exact ⟨Keyed.mem_of_find? hf, (Keyed.key_of_find? hf).symm ▸ hm⟩
    obtain ⟨c, hc, hce⟩ := Relation.TransGen.tail'_iff.mp he
    have hmem : c ∈ b.queries.entries := by
      rcases Relation.ReflTransGen.cases_tail hc with rfl | ⟨a, -, ha⟩
      · exact Keyed.mem_of_find? hq.declared
      · exact (found ha.1).1
    obtain ⟨he, hec⟩ := found hce.1
    have hnone := (found hv).2
    rw [hb.2 c hmem e he hec] at hnone
    exact absurd hnone List.not_mem_nil

end Bundle

def askingRequest (asset : List PredicateId) : Request where
  target := .policy "p"
  asset := Keyed.ofList asset
  now := 1700000000

def gatedBundle : Bundle where
  policies := .ofList [{ mrn := "p", groups := [
    { required := ["linux"], checks := [{ mrn := "c" }, { mrn := "y" }] }, { type := .disable, checks := [{ mrn := "y" }] }] }]
  queries := .ofList [{ mrn := "c", variants := ["x"] }, { mrn := "x", required := ["k"], code := some { id := "cx" } },
    { mrn := "y", code := some { id := "cy" } }]

theorem gatedBundle_rests_on_filters : ∃ res, gatedBundle.resolve (askingRequest ["k", "linux", "other"]) = .ok res ∧
    gatedBundle.resolve { askingRequest ["k", "linux", "other"] with asset := res.filters } = .ok res ∧
      ∀ asset res', gatedBundle.resolve { askingRequest ["k", "linux", "other"] with asset := asset } = .ok res' →
        res'.filters = res.filters → res' = res := by
  have hb : gatedBundle.Plain := by decide +kernel
  have hs : gatedBundle.checkScope (askingRequest ["k", "linux", "other"]) = .ok (gatedBundle.scope ["p"]) := by
    have hp : gatedBundle.isDeclared "p" = true := by decide +kernel
    have hc : (gatedBundle.scope ["p"]).covers (askingRequest ["k", "linux", "other"]).asset = true := by decide +kernel
    simp only [Bundle.checkScope, Bundle.checkScope.covered, askingRequest, Target.assigned, hp, ↓reduceIte]
    exact if_pos hc
  obtain ⟨res, h⟩ := Bundle.exists_resolution hs
  obtain ⟨hself, hother⟩ := Bundle.resolve_rests_on_filters h
  refine ⟨res, h, hself fun required ho => ?_, fun asset res' h' he => hother asset res' h' he fun required ho => ?_⟩
  · rw [hb.meets ho, hb.meets ho]
  · rw [hb.meets ho, hb.meets ho]

def mutedBundle : Bundle where
  policies := .ofList [{ mrn := "p", groups := [
    { checks := [{ mrn := "x" }] }, { type := .disable, required := ["k"], checks := [{ mrn := "x" }] }] }]
  queries := .ofList [{ mrn := "x", code := some { id := "cx" } }]

def nestedBundle : Bundle where
  policies := .ofList [{ mrn := "p", groups := [{ checks := [{ mrn := "c" }] }] }]
  queries := .ofList [{ mrn := "c", variants := ["v"] }, { mrn := "v", variants := ["x"] },
    { mrn := "x", required := ["k"], code := some { id := "cx" } }]

theorem exists_not_on_filters {b : Bundle} {n k : Nat} (hne : n ≠ k)
    (h : (b.resolve (askingRequest ["k"])).toOption.map (fun res => (res.graph.jobs.length, res.filters.entries)) =
      some (n, []))
    (h' : (b.resolve (askingRequest [])).toOption.map (·.graph.jobs.length) = some k) :
    ∃ res, b.resolve (askingRequest ["k"]) = .ok res ∧
      b.resolve { askingRequest ["k"] with asset := res.filters } ≠ .ok res := by
  cases hr : b.resolve (askingRequest ["k"]) with
  | error e => simp [hr, Except.toOption] at h
  | ok res =>
    simp only [hr, Except.toOption, Option.map_some, Option.some.injEq, Prod.mk.injEq] at h
    refine ⟨res, rfl, fun he => hne ?_⟩
    have hf : res.filters = Keyed.ofList [] := Keyed.ext h.2
    have hreq : { askingRequest ["k"] with asset := res.filters } = askingRequest [] := by
      rw [hf]
      rfl
    rw [hreq] at he
    simp only [he, Except.toOption, Option.map_some, Option.some.injEq] at h'
    exact h.1.symm.trans h'

theorem filters_leave_out :
    (∃ res, mutedBundle.resolve (askingRequest ["k"]) = .ok res ∧
      mutedBundle.resolve { askingRequest ["k"] with asset := res.filters } ≠ .ok res) ∧
    ∃ res, nestedBundle.resolve (askingRequest ["k"]) = .ok res ∧
      nestedBundle.resolve { askingRequest ["k"] with asset := res.filters } ≠ .ok res := by
  constructor
  · apply exists_not_on_filters (n := 1) (k := 2) (by decide)
    · decide +kernel
    · decide +kernel
  · apply exists_not_on_filters (n := 4) (k := 1) (by decide)
    · decide +kernel
    · decide +kernel

end Compliance
