import Compliance.Proofs.Orders
import Mathlib.Data.List.Permutation

/-!
Whether the order of assignment matters. A request resolves alike in every order exactly if any two
assigned policies agree on what they share: the policies that both lead to have the same children from
either, the jobs that both make have the same type, and the code that they start reads the same
properties in whatever order they start it.
-/

namespace Compliance

def ExecutionJob.bound (j : ExecutionJob) : NameMap (NameMap CodeId) := NameMap.mapValues (·.properties) j.queries

/-- Resolutions that say the same, but for the order of names, parents and consumers. -/
structure Resolution.Agrees (r r' : Resolution) : Prop where
  root : r.root = r'.root
  jobs : ∀ i t sc, r.graph.Typed i t sc ↔ r'.graph.Typed i t sc
  edges : ∀ i c w, r.graph.Weighs i c w ↔ r'.graph.Weighs i c w
  execution : r.execution.bound = r'.execution.bound
  magnitudes : r.magnitudes = r'.magnitudes
  filters : r.filters = r'.filters
  checksum : r.checksum = r'.checksum

inductive Agree : Except ResolveError Resolution → Except ResolveError Resolution → Prop
  | error (e : ResolveError) : Agree (.error e) (.error e)
  | ok {r r' : Resolution} : r.Agrees r' → Agree (.ok r) (.ok r')

structure Setting.OrderFree (s : Setting) (asset : Mrn) (ms : List Mrn) : Prop where
  concord : ∀ a ∈ ms, ∀ c ∈ ms, s.Concord asset a c
  bound : ∀ ms', ms.Perm ms' →
    (s.bundle.executionFrom (s.started asset ms)).bound = (s.bundle.executionFrom (s.started asset ms')).bound

namespace Bundle

variable {b : Bundle} {asset a c : Mrn} {policies policies' frameworks ms ms' : List Mrn} {filters : PredicateSet}
  {now : Timestamp}

abbrev assigning (asset : Mrn) (frameworks : List Mrn) (filters : PredicateSet) (now : Timestamp) (policies : List Mrn) :
    Request := ⟨.asset asset policies frameworks, filters, now⟩

theorem resolve_assigning : b.resolve (assigning asset frameworks filters now policies) =
    if (b.scope policies).covers filters = true then
      .ok (b.finish (assigning asset frameworks filters now policies) (b.scope policies) assetRoot
        ((b.setting (assigning asset frameworks filters now policies)).draftAsset asset
          (policies.filter b.isDeclared) frameworks))
    else .error (.scopeMismatch (b.scope policies).declared.entries filters.entries) := by
  have hcheck : b.checkScope (assigning asset frameworks filters now policies) =
      if (b.scope policies).covers filters = true then .ok (b.scope policies)
      else .error (.scopeMismatch (b.scope policies).declared.entries filters.entries) := rfl
  by_cases hs : (b.scope policies).covers filters = true
  · rw [if_pos hs] at hcheck ⊢
    exact resolve_eq_ok.mpr ⟨_, _, _, hcheck, rfl, rfl⟩
  · rw [if_neg hs] at hcheck ⊢
    simp only [resolve, run, hcheck]

theorem setting_assigning (hm : ∀ m, m ∈ policies ↔ m ∈ policies') :
    b.setting (assigning asset frameworks filters now policies) =
      b.setting (assigning asset frameworks filters now policies') := by
  simp only [setting, Target.assigned, b.collect_congr hm]

theorem finish_agrees {r r' : Request} (hr : r.asset = r'.asset) (scope : Scope) {root : Identity} {d d' : Draft}
    (hl : d.graph.Linked root) (hl' : d'.graph.Linked root) (hg : d.graph.Resembles d'.graph)
    (hm : d.magnitudes = d'.magnitudes) (hx : (b.executionJob d.graph).bound = (b.executionJob d'.graph).bound) :
    (b.finish r scope root d).Agrees (b.finish r' scope root d') where
  root := rfl
  jobs i t sc := by
    change d.graph.shareMrns.Typed i t sc ↔ d'.graph.shareMrns.Typed i t sc
    rw [Graph.shareMrns_typed, Graph.shareMrns_typed, hg.typed]
  edges i c w := by
    change d.graph.shareMrns.Weighs i c w ↔ d'.graph.shareMrns.Weighs i c w
    rw [Graph.shareMrns_weighs, Graph.shareMrns_weighs, hg.weighs]
  execution := hx
  magnitudes := hm
  filters := by simp only [finish, hr]
  checksum := hg.checksum hl hl'

end Bundle

namespace Setting

variable {s : Setting} {asset a c : Mrn} {ms ms' rest rest' frameworks : List Mrn}

theorem united_of_perm (h : s.Proper) (hc : ∀ a ∈ ms, ∀ c ∈ ms, s.Concord asset a c) (hp : ms.Perm ms') :
    United s asset ms' :=
  united h asset fun _ ha _ hc' => hc _ (hp.mem_iff.mpr ha) _ (hp.mem_iff.mpr hc')

theorem bound_of_concord (h : s.Proper) (hc : ∀ a ∈ ms, ∀ c ∈ ms, s.Concord asset a c)
    (hd : ∀ m ∈ ms, s.bundle.isDeclared m = true) (hp : ms.Perm ms') (frameworks : List Mrn) :
    (s.bundle.executionJob (s.draftAsset asset ms' frameworks).graph).bound =
      (s.bundle.executionFrom (s.started asset ms')).bound := by
  have hd' : ∀ m ∈ ms', s.bundle.isDeclared m = true := fun m hm => hd m (hp.mem_iff.mpr hm)
  rw [(united_of_perm h hc hp).execution h hd' frameworks]

theorem OrderFree.resembles (ho : s.OrderFree asset ms) (h : s.Proper) (hp : ms.Perm ms') (frameworks : List Mrn) :
    (s.draftAsset asset ms frameworks).graph.Resembles (s.draftAsset asset ms' frameworks).graph ∧
      (s.draftAsset asset ms frameworks).magnitudes = (s.draftAsset asset ms' frameworks).magnitudes := by
  have hm : ∀ m, m ∈ ms ↔ m ∈ ms' := fun _ => hp.mem_iff
  have hu := united_of_perm h ho.concord (.refl ms)
  exact draftAsset_resembles h hm (hu.resembles h (united_of_perm h ho.concord hp) hm) frameworks

theorem concord_of_first (h : s.Proper) (frameworks : List Mrn)
    (ht : ∀ i t sc, (s.draftAsset asset (a :: rest) frameworks).graph.Typed i t sc →
      (s.draftAsset asset (c :: rest') frameworks).graph.Typed i t sc)
    (he : ∀ i k, (s.draftAsset asset (a :: rest) frameworks).graph.Edge i k ↔
      (s.draftAsset asset (c :: rest') frameworks).graph.Edge i k) : s.Concord asset a c where
  children p hp hp' k := by
    have hname := Bundle.mem_names_policy.mpr ⟨p, hp.declared⟩
    rw [← first_edge h hp rest, ← first_edge h hp' rest', ← draftAsset_edge h asset _ frameworks hname,
      ← draftAsset_edge h asset _ frameworks hname, he]
  types i t sc ha hc := by
    obtain ⟨t', sc', hc⟩ := hc.typed
    have hfirst := ht i t sc (draftAsset_typed h asset _ frameworks (first_typed h ha rest))
    have hfirst' := draftAsset_typed h asset _ frameworks (first_typed h hc rest')
    obtain ⟨rfl, rfl⟩ := (draftAsset_unique h asset _ frameworks).typed_inj hfirst hfirst'
    exact hc

end Setting

namespace Bundle

variable {b : Bundle} {asset a : Mrn} {policies policies' frameworks ms ms' : List Mrn} {filters : PredicateSet}
  {now : Timestamp}

theorem declared_of_mem_filter : ∀ m ∈ policies.filter b.isDeclared, b.isDeclared m = true :=
  fun _ hm => (List.mem_filter.mp hm).2

theorem exists_perm_first (ha : a ∈ policies.filter b.isDeclared) :
    ∃ policies' rest, policies.Perm policies' ∧ policies'.filter b.isDeclared = a :: rest := by
  obtain ⟨hm, hd⟩ := List.mem_filter.mp ha
  exact ⟨_, _, List.perm_cons_erase hm, List.filter_cons_of_pos hd⟩

theorem exists_perm_filter (hp : (policies.filter b.isDeclared).Perm ms) :
    ∃ policies', policies.Perm policies' ∧ policies'.filter b.isDeclared = ms := by
  have hms : ∀ m ∈ ms, b.isDeclared m = true := fun m hm => declared_of_mem_filter m (hp.mem_iff.mpr hm)
  refine ⟨ms ++ policies.filter (!b.isDeclared ·), ?_, ?_⟩
  · exact (List.filter_append_perm b.isDeclared policies).symm.trans (hp.append_right _)
  · rw [List.filter_append, List.filter_eq_self.mpr hms, List.filter_filter]
    simp

theorem of_finish_agrees {r r' : Request} {scope : Scope} {root : Identity} {d d' : Draft}
    (h : (b.finish r scope root d).Agrees (b.finish r' scope root d')) :
    (∀ i t sc, d.graph.Typed i t sc ↔ d'.graph.Typed i t sc) ∧ (∀ i c, d.graph.Edge i c ↔ d'.graph.Edge i c) ∧
      (b.executionJob d.graph).bound = (b.executionJob d'.graph).bound := by
  refine ⟨fun i t sc => ?_, fun i c => ?_, h.execution⟩
  · rw [← Graph.shareMrns_typed, ← d'.graph.shareMrns_typed]
    exact h.jobs i t sc
  · rw [Graph.edge_iff, Graph.edge_iff]
    apply exists_congr
    intro w
    rw [← Graph.shareMrns_weighs, ← d'.graph.shareMrns_weighs]
    exact h.edges i c w

theorem agree_iff (hp : policies.Perm policies') :
    Agree (b.resolve (assigning asset frameworks filters now policies))
      (b.resolve (assigning asset frameworks filters now policies')) ↔
    ((b.scope policies).covers filters = true →
      (b.finish (assigning asset frameworks filters now policies) (b.scope policies) assetRoot
        ((b.setting (assigning asset frameworks filters now policies)).draftAsset asset
          (policies.filter b.isDeclared) frameworks)).Agrees
      (b.finish (assigning asset frameworks filters now policies') (b.scope policies) assetRoot
        ((b.setting (assigning asset frameworks filters now policies)).draftAsset asset
          (policies'.filter b.isDeclared) frameworks))) := by
  have hm : ∀ m, m ∈ policies ↔ m ∈ policies' := fun _ => hp.mem_iff
  rw [resolve_assigning, resolve_assigning, ← scope_congr hm, ← setting_assigning hm]
  by_cases hc : (b.scope policies).covers filters = true
  · rw [if_pos hc, if_pos hc]
    constructor
    · intro h _
      cases h with
      | ok h => exact h
    · exact fun h => .ok (h hc)
  · rw [if_neg hc, if_neg hc]
    exact iff_of_true (.error _) fun h => absurd h hc

/-- A request resolves alike in whatever order its policies are assigned exactly if, where it is in scope,
these agree on what they share. -/
theorem resolve_orderFree_iff (hb : b.Distinct) (asset : Mrn) (policies frameworks : List Mrn) (filters : PredicateSet)
    (now : Timestamp) :
    (∀ policies', policies.Perm policies' → Agree (b.resolve (assigning asset frameworks filters now policies))
      (b.resolve (assigning asset frameworks filters now policies'))) ↔
        ((b.scope policies).covers filters = true →
          (b.setting (assigning asset frameworks filters now policies)).OrderFree asset (policies.filter b.isDeclared)) := by
  have h := hb.proper (assigning asset frameworks filters now policies)
  constructor
  · intro hall hc
    have agrees := fun policies' hp => of_finish_agrees ((agree_iff hp).mp (hall policies' hp) hc)
    have concord : ∀ a ∈ policies.filter b.isDeclared, ∀ c ∈ policies.filter b.isDeclared,
        (b.setting (assigning asset frameworks filters now policies)).Concord asset a c := by
      intro a ha c hc
      obtain ⟨policies₁, rest₁, hp₁, hfirst₁⟩ := exists_perm_first ha
      obtain ⟨policies₂, rest₂, hp₂, hfirst₂⟩ := exists_perm_first hc
      obtain ⟨ht₁, he₁, -⟩ := agrees _ hp₁
      obtain ⟨ht₂, he₂, -⟩ := agrees _ hp₂
      rw [hfirst₁] at ht₁ he₁
      rw [hfirst₂] at ht₂ he₂
      exact Setting.concord_of_first h frameworks (fun i t sc ht => (ht₂ i t sc).mp ((ht₁ i t sc).mpr ht))
        fun i k => (he₁ i k).symm.trans (he₂ i k)
    refine ⟨concord, fun ms hp => ?_⟩
    obtain ⟨policies', hp', hfilter⟩ := exists_perm_filter hp
    obtain ⟨-, -, hx⟩ := agrees _ hp'
    rw [hfilter] at hx
    have hbound := Setting.bound_of_concord h concord declared_of_mem_filter (.refl _) frameworks
    have hbound' := Setting.bound_of_concord h concord declared_of_mem_filter hp frameworks
    exact hbound.symm.trans (hx.trans hbound')
  · intro ho policies' hp
    apply (agree_iff hp).mpr
    intro hc
    have hfilter := hp.filter b.isDeclared
    obtain ⟨hg, hm⟩ := (ho hc).resembles h hfilter frameworks
    obtain ⟨log, hs⟩ := Setting.exists_draftAsset_survey h asset declared_of_mem_filter frameworks
    obtain ⟨log', hs'⟩ := Setting.exists_draftAsset_survey h asset declared_of_mem_filter frameworks
    have hbound := Setting.bound_of_concord h (ho hc).concord declared_of_mem_filter (.refl _) frameworks
    have hbound' := Setting.bound_of_concord h (ho hc).concord declared_of_mem_filter hfilter frameworks
    exact finish_agrees rfl _ hs.grown.linked hs'.grown.linked hg hm
      (hbound.trans (((ho hc).bound _ hfilter).trans hbound'.symm))

end Bundle

def sharedBundle : Bundle where
  policies := .ofList [
    { mrn := "p", groups := [{ checks := [{ mrn := "x" }], policies := [{ mrn := "q" }] }] },
    { mrn := "q", groups := [{ checks := [{ mrn := "y" }], policies := [{ mrn := "p" }] }] },
    { mrn := "u", groups := [{ policies := [{ mrn := "p" }] }] },
    { mrn := "v", groups := [{ policies := [{ mrn := "p" }] }] }]
  queries := mutualBundle.queries

theorem sharedBundle_orderFree : sharedBundle.Distinct ∧ ∀ policies', ["u", "v"].Perm policies' →
    Agree (sharedBundle.resolve (assetRequest ["u", "v"])) (sharedBundle.resolve (assetRequest policies')) := by
  have hb : sharedBundle.Distinct := by decide +kernel
  refine ⟨hb, (Bundle.resolve_orderFree_iff hb "a" ["u", "v"] [] Keyed.empty 1700000000).mpr fun _ => ?_⟩
  have hdeclared : ["u", "v"].filter sharedBundle.isDeclared = ["u", "v"] := by decide +kernel
  rw [hdeclared]
  generalize hs : sharedBundle.setting (Bundle.assigning "a" [] Keyed.empty 1700000000 ["u", "v"]) = s
  have hpolicies : s.bundle.policies = sharedBundle.policies := hs ▸ rfl
  have hjobs : ∀ a ∈ ["u", "v"], ∀ c ∈ ["u", "v"], ∀ j ∈ (s.alone "a" a).graph.jobs, ∀ k ∈ (s.alone "a" c).graph.jobs,
      j.identity = k.identity → j.type = k.type ∧ j.scoring = k.scoring := by
    rw [← hs]
    decide +kernel
  have hchildren : ∀ a ∈ ["u", "v"], ∀ c ∈ ["u", "v"], ∀ j ∈ (s.alone "a" a).graph.jobs,
      j.identity = .mrn "p" ∨ j.identity = .mrn "q" →
        ∃ k ∈ (s.alone "a" c).graph.jobs, k.identity = j.identity ∧ k.children = j.children := by
    rw [← hs]
    decide +kernel
  have hedge : ∀ a ∈ ["u", "v"], ∀ c ∈ ["u", "v"], ∀ m ∈ ["p", "q"], ∀ i,
      (s.alone "a" a).graph.Edge (.mrn m) i → (s.alone "a" c).graph.Edge (.mrn m) i := by
    rintro a ha c hc m hm i ⟨j, hj, hjm, hi⟩
    obtain ⟨k, hk, hkj, hkc⟩ := hchildren a ha c hc j hj (by simpa [hjm] using hm)
    rw [← hkc] at hi
    exact ⟨k, hk, hkj.trans hjm, hi⟩
  have hbound : ∀ ms ∈ [["u", "v"], ["v", "u"]], (s.bundle.executionFrom (s.started "a" ["u", "v"])).bound =
      (s.bundle.executionFrom (s.started "a" ms)).bound := by
    rw [← hs]
    decide +kernel
  have hlead : ∀ p ∈ sharedBundle.policies.entries, ∀ g ∈ p.groups, ∀ r ∈ g.policies, r.mrn ∈ ["p", "q"] := by
    decide +kernel
  have hwalked : ∀ m p, s.Walked [m] p → p.mrn = m ∨ p.mrn ∈ ["p", "q"] := by
    intro m p hp
    cases hp with
    | root hm hp => exact .inl ((Keyed.key_of_find? hp).trans (List.mem_singleton.mp hm))
    | included hw hi =>
      obtain ⟨g, hg, r, hr, -, hq⟩ := hi
      have hmem := Keyed.mem_of_find? hw.declared
      rw [hpolicies] at hmem
      rw [Keyed.key_of_find? hq]
      exact .inr (hlead _ hmem g (List.mem_filter.mp (List.mem_filter.mp hg).1).1 r hr)
  refine ⟨fun a ha c hc => ⟨fun p hpa hpc i => ?_, fun i t sc ht hi => ?_⟩, fun ms hp => ?_⟩
  · have hshared : a = c ∨ p.mrn ∈ ["p", "q"] := by
      rcases hwalked a p hpa with hp | hp
      · exact (hwalked c p hpc).imp (hp.symm.trans ·) id
      · exact .inr hp
    rcases hshared with rfl | hp
    · rfl
    · exact ⟨hedge a ha c hc p.mrn hp i, hedge c hc a ha p.mrn hp i⟩
  · obtain ⟨j, hj, rfl, rfl, rfl⟩ := ht
    obtain ⟨k, hk, hkj, -⟩ := hi
    obtain ⟨ht, hsc⟩ := hjobs a ha c hc j hj k hk hkj.symm
    exact ⟨k, hk, hkj, ht.symm, hsc.symm⟩
  · exact hbound ms (by simpa using List.perm_pair.mp hp.symm)

theorem mutualBundle_order_matters : mutualBundle.Distinct ∧ ["p", "q"].Perm ["q", "p"] ∧
    ¬Agree (mutualBundle.resolve (assetRequest ["p", "q"])) (mutualBundle.resolve (assetRequest ["q", "p"])) := by
  have hb : mutualBundle.Distinct := by decide +kernel
  have hs : ∀ ms ∈ [["p", "q"], ["q", "p"]], (mutualBundle.scope ms).covers Keyed.empty = true := by decide +kernel
  refine ⟨hb, .swap .., fun h => ?_⟩
  unfold assetRequest at h
  rw [Bundle.resolve_assigning, Bundle.resolve_assigning, if_pos (hs _ (by simp)), if_pos (hs _ (by simp))] at h
  cases h with
  | ok h =>
    have he := h.edges (.mrn "p") (.mrn "q") {}
    simp only [Graph.Weighs, Graph.Holds, Bundle.finish] at he
    revert he
    decide +kernel

end Compliance
