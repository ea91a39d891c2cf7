import Compliance.Proofs.Preorder
import Compliance.Proofs.Rooted
import Compliance.Proofs.Visits

namespace Compliance

theorem gather_idle {σ α β : Type} {P : σ → Prop} {step : α → σ → Option β × σ} {l : List α} {d : σ}
    (h : ∀ a ∈ l, ∀ d, P d → (step a d).1 = none ∧ P (step a d).2) (hd : P d) :
    (gather step l d).1 = [] ∧ P (gather step l d).2 := by
  induction l generalizing d with
  | nil => exact ⟨rfl, hd⟩
  | cons a rest ih =>
    obtain ⟨hnone, hP⟩ := h a List.mem_cons_self d hd
    obtain ⟨hnil, hP'⟩ := ih (fun b hb => h b (List.mem_cons_of_mem a hb)) hP
    rw [gather_cons]
    refine ⟨?_, hP'⟩
    simp [hnone, hnil]

structure Barren (g : Graph) (d : Draft) : Prop where
  graph : d.graph = g
  idle : ∀ t, ∀ x ∈ d.ledger t, x.2 = false

namespace Barren

variable {g : Graph} {d d' : Draft} {t : JobType} {m : Mrn} {made : Bool}

theorem of_lookup (h : Barren g d) (hl : (d.ledger t).lookup m = some made) : made = false :=
  h.idle t _ (mem_of_lookup hl)

theorem same (h : Barren g d) (hg : d'.graph = d.graph) (hl : ∀ t, d'.ledger t = d.ledger t) : Barren g d' where
  graph := hg.trans h.graph
  idle t := by
    rw [hl]
    exact h.idle t

theorem note (h : Barren g d) (e : Event) : Barren g (d.note e) :=
  h.same rfl fun t => by cases t <;> rfl

theorem settle (h : Barren g d) (m : Mrn) (hg : d'.graph = d.graph)
    (hl : ∀ t, d'.ledger t = d.ledger t ∨ d'.ledger t = (m, false) :: d.ledger t) : Barren g d' where
  graph := hg.trans h.graph
  idle t x hx := by
    rcases hl t with he | he
    · exact h.idle t x (he ▸ hx)
    · rw [he] at hx
      rcases List.mem_cons.mp hx with rfl | hx
      · rfl
      · exact h.idle t x hx

end Barren

namespace ControlScope

variable {c : ControlScope} {g : Graph} {d : Draft}

theorem control_barren (hc : c.evidence = []) (path : List Mrn) (m : Mrn) (h : Barren g d) :
    (c.control path m d).1 = false ∧ Barren g (c.control path m d).2 := by
  cases hl : d.controls.lookup m with
  | some made =>
    rw [control_settled hl]
    exact ⟨h.of_lookup (t := .control) hl, h⟩
  | none =>
    by_cases hm : m ∈ path
    · rw [control_cut hl hm]
      exact ⟨rfl, h.note _⟩
    · rw [control_bare hl hm (by simp [hc])]
      exact ⟨rfl, h.settle m rfl fun t => by cases t <;> simp [Draft.ledger]⟩

theorem link_barren (hc : c.evidence = []) (m : Mrn) (h : Barren g d) :
    (c.link (c.control []) m d).1 = none ∧ Barren g (c.link (c.control []) m d).2 := by
  obtain ⟨hmade, hb⟩ := control_barren hc [] m h
  unfold link
  split
  · exact ⟨rfl, h⟩
  · simp only [hmade]
    exact ⟨rfl, hb⟩

end ControlScope

namespace Setting

variable {s : Setting} {p : Policy} {g : Graph} {d : Draft} {c : ControlScope}

def Unmet (s : Setting) (p : Policy) : Prop := ∀ required ∈ s.bundle.gates p, s.asset.meets required = false

theorem Unmet.contentGroups (h : s.Unmet p) : p.contentGroups s.asset s.now = [] := by
  apply List.filter_eq_nil_iff.mpr
  intro k hk hc
  obtain ⟨hk, ha⟩ := List.mem_filter.mp hk
  have hgate : k.required ∈ s.bundle.gates p :=
    List.mem_append_left _ (List.mem_map_of_mem (List.mem_filter.mpr ⟨hk, hc⟩))
  simp [PolicyGroup.applies, h _ hgate] at ha

theorem Unmet.isLive (h : s.Unmet p) {f : RiskFactorRef} {k : RiskFactor} (hf : f ∈ p.riskFactors)
    (hk : s.bundle.riskFactors.find? f.mrn = some k) : s.isLive k = false := by
  have hgate : k.required ∈ s.bundle.gates p := by
    apply List.mem_append_right
    exact List.mem_map_of_mem (List.mem_filterMap.mpr ⟨f, List.mem_append_right _ hf, hk⟩)
  simp [Setting.isLive, h _ hgate]

theorem riskFactorRef_barren (hp : s.Unmet p) {f : RiskFactorRef} (hf : f ∈ p.riskFactors) (h : Barren g d) :
    (s.riskFactorRef p.mrn f.mrn d).1 = none ∧ Barren g (s.riskFactorRef p.mrn f.mrn d).2 := by
  cases hl : d.riskFactors.lookup f.mrn with
  | some made =>
    obtain rfl := h.of_lookup (t := .riskFactor) hl
    rw [riskFactorRef_settled hl]
    exact ⟨rfl, h⟩
  | none =>
    cases hk : s.bundle.riskFactors.find? f.mrn with
    | none =>
      rw [riskFactorRef_undeclared hl hk]
      exact ⟨rfl, h.note _⟩
    | some k =>
      rw [riskFactorRef_first hl hk, riskFactorJob_idle (hp.isLive hf hk)]
      exact ⟨rfl, h.settle f.mrn rfl fun t => by cases t <;> simp [Draft.ledger]⟩

theorem policyLinks_barren (hp : s.Unmet p) (below : Mrn → Draft → Bool × Draft) (h : Barren g d) :
    (s.policyLinks below p d).1 = [] ∧ Barren g (s.policyLinks below p d).2 := by
  rw [policyLinks_eq, Policy.references, hp.contentGroups]
  apply gather_idle _ h
  intro r hr d h
  obtain ⟨f, hf, rfl⟩ := List.mem_map.mp hr
  exact riskFactorRef_barren hp hf h

theorem policy_barren (path : List Mrn) (referrer m : Mrn) (hp : ∀ p, s.bundle.policies.find? m = some p → s.Unmet p)
    (h : Barren g d) : (s.policy path referrer m d).1 = false ∧ Barren g (s.policy path referrer m d).2 := by
  cases hl : d.policies.lookup m with
  | some made =>
    rw [policy_settled hl]
    exact ⟨h.of_lookup (t := .policy) hl, h⟩
  | none =>
    by_cases hm : m ∈ path
    · rw [policy_cut hl hm]
      exact ⟨rfl, h.note _⟩
    · cases hf : s.bundle.policies.find? m with
      | none =>
        rw [policy_undeclared hl hm hf]
        exact ⟨rfl, h.note _⟩
      | some p =>
        obtain ⟨hnil, hb⟩ := policyLinks_barren (hp p hf) (s.policy (m :: path) p.mrn) h
        rw [policy_first hl hm hf]
        simp only [hnil, Draft.structural, List.isEmpty_nil, ↓reduceIte]
        exact ⟨trivial, hb.settle m rfl fun t => by cases t <;> simp [Draft.ledger]⟩

theorem framework_barren (hc : c.evidence = []) (path : List Mrn) (m : Mrn) {d : Draft} (h : Barren g d) :
    (s.framework c path m d).1 = false ∧ Barren g (s.framework c path m d).2 := by
  cases hl : d.frameworks.lookup m with
  | some made =>
    rw [framework_settled hl]
    exact ⟨h.of_lookup (t := .framework) hl, h⟩
  | none =>
    by_cases hm : m ∈ path
    · rw [framework_cut hl hm]
      exact ⟨rfl, h.note _⟩
    · cases hf : s.bundle.frameworks.find? m with
      | none =>
        rw [framework_undeclared hl hm hf]
        exact ⟨rfl, h⟩
      | some f =>
        obtain rfl := Keyed.key_of_find? hf
        obtain ⟨hnil, hb⟩ := gather_idle (fun n (_ : n ∈ (f.contentGroups s.now).flatMap (·.controls)) _ =>
          ControlScope.link_barren hc n) h
        have hdep : ∀ r ∈ f.dependencies, ∀ d, Barren g d →
            (dependencyStep (s.framework c (f.mrn :: path)) r d).1 = none ∧
              Barren g (dependencyStep (s.framework c (f.mrn :: path)) r d).2 := by
          intro r _ d h
          obtain ⟨hmade, hb⟩ := framework_barren hc (f.mrn :: path) r.mrn h
          unfold dependencyStep
          split
          · exact ⟨rfl, h⟩
          · simp only [hmade]
            exact ⟨rfl, hb⟩
        obtain ⟨hnil', hb'⟩ := gather_idle hdep hb
        rw [framework_first hl hm hf]
        simp only [hnil, hnil', Draft.structural, List.append_nil, List.isEmpty_nil, ↓reduceIte]
        exact ⟨trivial, hb'.settle f.mrn rfl fun t => by cases t <;> simp [Draft.ledger]⟩
termination_by unvisited Framework.mrn s.bundle.frameworks.entries path
decreasing_by
  exact unvisited_cons_lt (Keyed.mem_of_find? hf) hm

theorem foldl_barren {α : Type} {step : Draft → α → Draft} {l : List α} (h : ∀ a ∈ l, ∀ d, Barren g d → Barren g (step d a))
    (hd : Barren g d) : Barren g (l.foldl step d) := by
  induction l generalizing d with
  | nil => exact hd
  | cons a rest ih => exact ih (fun b hb => h b (List.mem_cons_of_mem a hb)) (h a List.mem_cons_self d hd)

theorem addFrameworks_barren (root : Identity) (assigned : List Mrn) (h : Barren g d) :
    Barren g (s.addFrameworks root assigned d) := by
  unfold addFrameworks
  apply foldl_barren
  · intro m _ d' h'
    have hmaps : ∀ active, (s.candidateMaps active d).filter (·.2) = [] := by
      intro active
      apply List.filter_eq_nil_iff.mpr
      intro x hx
      obtain ⟨k, -, rfl⟩ := List.mem_map.mp hx
      simp only [List.any_eq_true, not_exists, not_and]
      intro n _ hn
      have := h.of_lookup (t := .policy) (beq_iff_eq.mp hn)
      cases this
    obtain ⟨hmade, hb⟩ := framework_barren (s := s) (c := s.controlScope ((s.discovered assigned).filterMap (·.2))
      (s.candidateMaps ((s.discovered assigned).filterMap (·.2)) d)) (by simp [controlScope, hmaps]) [] m h'
    simp only [adopt, hmade]
    exact hb
  · exact h.same rfl fun t => by cases t <;> rfl

theorem draftPolicy_barren (hp : s.Unmet p) : (s.draftPolicy p).graph = (Draft.start (.mrn p.mrn) p.scoring p.mrn).graph := by
  have hstart : Barren (Draft.start (.mrn p.mrn) p.scoring p.mrn).graph (.start (.mrn p.mrn) p.scoring p.mrn) :=
    ⟨rfl, fun t => by cases t <;> simp [Draft.ledger, Draft.start]⟩
  obtain ⟨hnil, hb⟩ := policyLinks_barren hp (s.policy [p.mrn] p.mrn) hstart
  simp only [draftPolicy, hnil, hb.graph]
  rfl

theorem draftAsset_barren (asset : Mrn) {policies : List Mrn} (frameworks : List Mrn)
    (hp : ∀ m ∈ policies, ∀ p, s.bundle.policies.find? m = some p → s.Unmet p) :
    (s.draftAsset asset policies frameworks).graph = (Draft.start assetRoot .unspecified asset).graph := by
  apply Barren.graph
  apply addFrameworks_barren
  apply foldl_barren
  · intro m hm d h
    obtain ⟨hmade, hb⟩ := policy_barren [] asset m (hp m hm) h
    simp only [assign, hmade]
    exact hb
  · exact ⟨rfl, fun t => by cases t <;> simp [Draft.ledger, Draft.start]⟩

end Setting

namespace Bundle

variable {b : Bundle} {r : Request} {root : Identity} {d : Draft}

theorem unmet_of_not_covers (h : (b.scope r.target.assigned).covers r.asset = false) {m : Mrn}
    (hm : m ∈ r.target.assigned) {p : Policy} (hp : b.policies.find? m = some p) : (b.setting r).Unmet p := by
  intro required hreq
  have hgate : required ∈ (b.hierarchy r.target.assigned).flatMap b.gates :=
    List.mem_flatMap.mpr ⟨p, mem_preorder_iff.mpr (.named hm hp), hreq⟩
  rw [Scope.covers, Bool.or_eq_false_iff] at h
  obtain ⟨hall, hany⟩ := h
  change (required.isEmpty || required.any (NameSet.contains r.asset)) = false
  rw [Bool.or_eq_false_iff]
  constructor
  · exact Bool.eq_false_iff.mpr fun he => Bool.eq_false_iff.mp hall (List.any_eq_true.mpr ⟨required, hgate, he⟩)
  · rw [List.any_eq_false] at hany ⊢
    intro k hk
    apply hany
    apply NameSet.mem_entries.mp
    exact NameSet.mem_ofList.mpr (List.mem_append_left _ (List.mem_flatten.mpr ⟨required, hgate, hk⟩))

theorem draft_of_not_covers (hd : b.draft r = .ok (root, d))
    (h : (b.scope r.target.assigned).covers r.asset = false) : ∀ j ∈ d.graph.jobs, j.identity = root := by
  have hstart : ∃ sc m, d.graph = (Draft.start root sc m).graph := by
    unfold draft at hd
    cases ht : r.target with
    | policy m =>
      rw [ht] at hd
      cases hp : b.policies.find? m with
      | none => simp [hp] at hd
      | some p =>
        simp only [hp, Except.ok.injEq, Prod.mk.injEq] at hd
        obtain ⟨rfl, rfl⟩ := hd
        obtain rfl := Keyed.key_of_find? hp
        refine ⟨_, _, Setting.draftPolicy_barren ?_⟩
        exact unmet_of_not_covers h (by simp [ht, Target.assigned]) hp
    | asset asset policies frameworks =>
      rw [ht] at hd
      obtain ⟨rfl, rfl⟩ := Prod.mk.inj (Except.ok.inj hd)
      refine ⟨_, _, Setting.draftAsset_barren asset frameworks fun m hm p hp => ?_⟩
      refine unmet_of_not_covers h ?_ hp
      rw [ht]
      exact List.mem_of_mem_filter hm
  obtain ⟨sc, m, hg⟩ := hstart
  rw [hg]
  simp [Setting.start_jobs]

theorem resolve_of_job {j : Job} (hd : b.draft r = .ok (root, d)) (hj : j ∈ d.graph.jobs) (hne : j.identity ≠ root) :
    (b.scope r.target.assigned).covers r.asset = true ∧ ∃ res, b.resolve r = .ok res ∧ res.graph = d.graph.shareMrns := by
  have hs : (b.scope r.target.assigned).covers r.asset = true := by
    by_contra hn
    exact hne (draft_of_not_covers hd (Bool.eq_false_iff.mpr hn) j hj)
  have hc : b.checkScope r = .ok (b.scope r.target.assigned) := by
    unfold draft at hd
    unfold checkScope
    cases ht : r.target with
    | asset asset policies frameworks =>
      rw [ht] at hs
      exact if_pos hs
    | policy m =>
      rw [ht] at hs hd
      have hm : b.isDeclared m = true := by
        cases hp : b.policies.find? m with
        | none => simp [hp] at hd
        | some p => simp [isDeclared, Keyed.has, hp]
      simp only [hm, ↓reduceIte]
      exact if_pos hs
  exact ⟨hs, _, resolve_eq_ok.mpr ⟨_, _, _, hc, hd, rfl⟩, rfl⟩

end Bundle

theorem mutualBundle_inScope :
    ∃ root d j, mutualBundle.draft (assetRequest ["p"]) = .ok (root, d) ∧ j ∈ d.graph.jobs ∧ j.identity ≠ root ∧
      (mutualBundle.scope ["p"]).covers Keyed.empty = true ∧
        ∃ res, mutualBundle.resolve (assetRequest ["p"]) = .ok res ∧ res.graph = d.graph.shareMrns := by
  have hd : mutualBundle.draft (assetRequest ["p"]) = .ok (assetRoot,
    (mutualBundle.setting (assetRequest ["p"])).draftAsset "a" (["p"].filter mutualBundle.isDeclared) []) := rfl
  obtain ⟨j, hj, hne⟩ : ∃ j ∈ ((mutualBundle.setting (assetRequest ["p"])).draftAsset "a"
      (["p"].filter mutualBundle.isDeclared) []).graph.jobs, j.identity ≠ assetRoot := by
    decide +kernel
  exact ⟨_, _, j, hd, hj, hne, Bundle.resolve_of_job hd hj hne⟩

end Compliance
