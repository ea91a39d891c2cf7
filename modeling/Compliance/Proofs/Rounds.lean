import Compliance.Proofs.Adoption

namespace Compliance

namespace Setting

structure Rounds (s : Setting) (root : Identity) (roots path : List Mrn) (start : Draft) (log rest : List Edit)
    (walked d : Draft) : Prop where
  blank : Blank root start
  weightless : ∀ m, NameMap.get? start.magnitudes m = none
  told : s.Told root roots start path log walked
  graph : d.graph = walked.graph.drawAll rest
  magnitudes : d.magnitudes = walked.magnitudes
  beside : ∀ e ∈ rest, s.bundle.Evidential root e ∨ ∃ l : Link, e = .connect root l.1 l.2
  followed : ∀ p, s.Walked roots p → ∀ r ∈ p.references s.asset s.now, s.Followed path walked.policies log p r
  below : ∀ m ∈ walked.policies.map Prod.fst, .mrn m ≠ root
  met : ∀ p, s.Walked roots p → p.mrn ∈ walked.policies.map Prod.fst ∨
    .mrn p.mrn = root ∧ rest = hanging root (s.linksAt walked.policies p) ∧ ∀ c, ¬walked.graph.Edge root c

theorem exists_rounds_asset {s : Setting} (h : s.Proper) (asset : Mrn) (policies frameworks : List Mrn) :
    ∃ log rest walked, s.Rounds assetRoot policies [] (.start assetRoot .unspecified asset) log rest walked
      (s.draftAsset asset (policies.filter s.bundle.isDeclared) frameworks) := by
  have hsub : ∀ m ∈ policies.filter s.bundle.isDeclared, m ∈ policies := fun m hm => (List.mem_filter.mp hm).1
  obtain ⟨log, ha⟩ := exists_assigned h asset hsub
  obtain ⟨rest, hev, heq⟩ := exists_frameworks h asset (policies.filter s.bundle.isDeclared) frameworks
  obtain ⟨hgraph, hmagnitudes⟩ := heq _ (.refl _) rfl
  have hfollowed : ∀ p, s.Walked policies p → ∀ r ∈ p.references s.asset s.now, s.Followed [] _ log p r :=
    fun p hp => ha.followed mem_declared hp
  have hnamed : ∀ {m : Mrn}, m ∈ (s.together asset (policies.filter s.bundle.isDeclared)).policies.map Prod.fst →
      .mrn m ≠ assetRoot := by
    intro m hm
    obtain ⟨x, hx, rfl⟩ := List.mem_map.mp hm
    exact h.distinct.ne_assetRoot (ha.told.names (List.suffix_refl _) x hx)
  refine ⟨log, rest, _, start_blank .., fun _ => rfl, ha.told, hgraph, hmagnitudes, fun e he => .inl (hev e he),
    hfollowed, fun m => hnamed, fun p hp => .inl ?_⟩
  induction hp with
  | root hm hp => exact (Keyed.key_of_find? hp).symm ▸ ha.met _ (mem_declared _ hm _ hp) _ hp
  | included hw hi _ =>
    obtain ⟨g, hg, r, hr, hact, hq⟩ := hi
    have hmet := hfollowed _ hw _ (Policy.mem_references_policy.mpr ⟨g, hg, hr⟩) hact _ hq
    exact (Keyed.key_of_find? hq).symm ▸ hmet.resolve_right List.not_mem_nil

theorem exists_rounds_policy {s : Setting} {p : Policy} (h : s.Proper) (hp : s.bundle.policies.find? p.mrn = some p) :
    ∃ log rest walked, s.Rounds (.mrn p.mrn) [p.mrn] [p.mrn] (.start (.mrn p.mrn) p.scoring p.mrn) log rest walked
      (s.draftPolicy p) := by
  obtain ⟨log, d, ht, heq, -, -, hfollowed⟩ := exists_draftPolicy h hp
  have hb := start_blank (.mrn p.mrn) p.scoring p.mrn
  have hname : (Kind.policy, p.mrn) ∈ s.bundle.names := Bundle.mem_names_policy.mpr ⟨p, hp⟩
  have hwalked : ∀ q, s.Walked [p.mrn] q → ∀ r ∈ q.references s.asset s.now, s.Followed [p.mrn] d.policies log q r := by
    refine fun q hq => ht.walked_followed (fun m hm _ q hq => ?_) hq
    obtain rfl : m = p.mrn := by simpa using hm
    obtain rfl := Option.some.inj (hp.symm.trans hq)
    exact hfollowed
  have hbelow : ∀ m ∈ d.policies.map Prod.fst, .mrn m ≠ (.mrn p.mrn : Identity) := by
    intro m hm hi
    obtain rfl := Identity.mrn.inj hi
    exact ht.apart _ List.mem_cons_self hm
  have hbare : ∀ c, ¬d.graph.Edge (.mrn p.mrn) c := by
    intro c he
    obtain ⟨e, he, w, hties⟩ := (ht.edge_iff hb).mp he
    rcases ht.exists_of_ties h.distinct hname he hties with ⟨q, tail, -, hsuffix, -⟩ | ⟨-, n, hn, hdone⟩
    · exact hbelow _ (List.mem_map_of_mem (hsuffix.subset List.mem_cons_self)) rfl
    · exact hbelow _ (List.mem_map_of_mem hdone) (by rw [List.mem_singleton.mp hn])
  rw [heq]
  refine ⟨log, hanging (.mrn p.mrn) (s.linksAt d.policies p), d, hb, fun _ => rfl, ht, Draft.replay_graph .., ?_, ?_,
    hwalked, hbelow, fun q hq => ?_⟩
  · rw [replay_hanging]
  · intro e he
    obtain ⟨l, -, rfl⟩ := List.mem_map.mp he
    exact .inr ⟨l, rfl⟩
  · by_cases hm : q.mrn = p.mrn
    · have hq' := hq.declared
      rw [hm] at hq'
      obtain rfl := Option.some.inj (hp.symm.trans hq')
      exact .inr ⟨rfl, rfl, hbare⟩
    · left
      cases hq with
      | root hmem hq => exact absurd ((Keyed.key_of_find? hq).trans (List.mem_singleton.mp hmem)) hm
      | included hw hi =>
        obtain ⟨g, hg, r, hr, hact, hq⟩ := hi
        have hmet := hwalked _ hw _ (Policy.mem_references_policy.mpr ⟨g, hg, hr⟩) hact _ hq
        rw [Keyed.key_of_find? hq] at hm ⊢
        exact hmet.resolve_right fun hmem => hm (List.mem_singleton.mp hmem)

theorem Lawful.makes_plain {s : Setting} {roots : List Mrn} {done risks : List (Mrn × Bool)} {e : Edit} {i : Identity}
    {t : JobType} {sc : ScoringSystem} (h : s.Lawful roots done risks e) (hm : e.Makes i t sc) (ht : t.isQuery = false) :
    (t = .riskFactor ∧ ∃ p f k, s.Walked roots p ∧ f ∈ p.riskReferences s.asset s.now ∧
      s.bundle.riskFactors.find? f.mrn = some k ∧ s.Raised k ∧ i = .mrn f.mrn) ∨
    t = .policy ∧ ∃ p, s.Walked roots p ∧ i = .mrn p.mrn ∧ sc = s.policyScoring p := by
  cases h with
  | @query role q e hq hdraw =>
    obtain ⟨-, -, -, rfl, -⟩ := hdraw.makes hq.mem hm
    cases role <;> cases ht
  | raising hp hf hk hraised _ he =>
    simp only [Setting.raising, List.mem_cons, List.not_mem_nil, or_false] at he
    rcases he with rfl | rfl
    · obtain ⟨-, rfl, rfl, -⟩ := hm
      exact .inl ⟨rfl, _, _, _, hp, hf, hk, hraised, congrArg _ (Keyed.key_of_find? hk)⟩
    · exact hm.elim
  | policy hp _ =>
    obtain ⟨-, rfl, rfl, rfl⟩ := hm
    exact .inr ⟨rfl, _, hp, rfl, rfl⟩
  | _ => exact hm.elim

namespace Rounds

variable {s : Setting} {root : Identity} {roots path : List Mrn} {start walked d : Draft} {log rest : List Edit}
  {p : Policy} {k : RiskFactor} {e : Edit} {m : Mrn} {i c : Identity} {t : JobType} {sc : ScoringSystem} {w : Impact}
  (h : s.Rounds root roots path start log rest walked d)
include h

theorem drawn : d.graph = start.graph.drawAll (log ++ rest) := by
  rw [h.graph, h.told.graph, Graph.drawAll_append]

theorem grounded {g : Graph} (hg : g.Has root) : ∀ e ∈ rest, e.Grounded g := by
  intro e he
  rcases h.beside e he with he | ⟨l, rfl⟩
  · exact he.grounded hg
  · exact hg

theorem walked_has_root : walked.graph.Has root := (h.told.has_iff h.blank).mpr (.inl rfl)

theorem typed (ht : d.graph.Typed i t sc) : i = root ∧ t = .root ∨ (∃ e ∈ log, e.Makes i t sc) ∨
    ∃ tier m, i = .mrn m ∧ (Tier.kind tier, m) ∈ s.bundle.names ∧ t = tier.jobType := by
  rw [h.drawn] at ht
  rcases Graph.typed_of_drawAll h.blank.linked.unique ht with ht | ⟨e, he, hm⟩
  · obtain rfl := (h.blank.has i).mp ht.has
    obtain ⟨j, -, -, ⟨hroot, -⟩, rfl, -⟩ := h.blank.linked.unique.holds_and h.blank.linked.hasRoot ht
    exact .inl ⟨rfl, hroot⟩
  · rcases List.mem_append.mp he with he | he
    · exact .inr (.inl ⟨e, he, hm⟩)
    · rcases h.beside e he with he | ⟨l, rfl⟩
      · cases he with
        | @structural tier m sc ls hname =>
          obtain ⟨-, rfl, rfl, -⟩ := hm
          exact .inr (.inr ⟨tier, m, rfl, hname, rfl⟩)
        | _ => exact hm.elim
      · exact hm.elim

theorem not_ties (hd : s.bundle.Distinct) (hm : (Kind.policy, m) ∈ s.bundle.names) (hr : .mrn m ≠ root) (he : e ∈ rest) :
    ¬e.Ties (.mrn m) c w := by
  rcases h.beside e he with he | ⟨l, rfl⟩
  · exact he.not_ties hd hm hr
  · exact fun hties => hr hties.1

theorem policy_job (ht : d.graph.Typed i .policy sc) :
    ∃ p, s.Walked roots p ∧ i = .mrn p.mrn ∧ sc = s.policyScoring p := by
  rcases h.typed ht with ⟨-, htype⟩ | ⟨e, he, hm⟩ | ⟨tier, m, -, -, htype⟩
  · cases htype
  · rcases h.told.sound e he with he | ⟨n, -, -, rfl⟩
    · rcases he.makes_plain hm rfl with ⟨htype, -⟩ | ⟨-, hp⟩
      · cases htype
      · exact hp
    · exact hm.elim
  · cases tier <;> cases htype

theorem exists_weighs_iff (hd : s.bundle.Distinct) (hp : s.Walked roots p) :
    ∃ done, (∀ x ∈ done, (Kind.policy, x.1) ∈ s.bundle.names) ∧
      ∀ c w, d.graph.Weighs (.mrn p.mrn) c w ↔ (s.linksAt done p).lookup c = some w := by
  have hu := h.told.unique h.blank
  rcases h.met p hp with hm | ⟨hroot, hrest, hbare⟩
  · obtain ⟨⟨_, made⟩, hx, rfl⟩ := List.mem_map.mp hm
    obtain ⟨tail, ht⟩ := exists_suffix_of_mem hx
    have hr := h.below _ hm
    refine ⟨tail, h.told.names ((List.suffix_cons ..).trans ht), fun c w => ?_⟩
    rw [← h.told.policy_weighs hd h.blank hr hp.declared ht, h.graph]
    refine ⟨fun hw => ?_, fun hw => hw.drawAll hu (h.grounded h.walked_has_root)⟩
    rcases Graph.weighs_of_drawAll hu (h.grounded h.walked_has_root) hw with hw | ⟨e, he, hties⟩
    · exact hw
    · exact absurd hties (h.not_ties hd (Bundle.mem_names_policy.mpr ⟨p, hp.declared⟩) hr he)
  · refine ⟨walked.policies, h.told.names (List.suffix_refl _), fun c w => ?_⟩
    rw [h.graph, hrest, drawAll_hanging, hroot, Graph.connectAll_weighs hu h.walked_has_root]
    constructor
    · rintro (hw | ⟨-, -, hl⟩)
      · exact absurd (Graph.edge_iff.mpr ⟨w, hw⟩) (hbare c)
      · exact hl
    · exact fun hl => .inr ⟨rfl, hbare c, hl⟩

theorem exists_raised (ht : d.graph.Typed i .riskFactor sc) :
    ∃ p f k, s.Walked roots p ∧ f ∈ p.riskReferences s.asset s.now ∧ s.bundle.riskFactors.find? f.mrn = some k ∧
      s.Raised k ∧ i = .mrn f.mrn := by
  rcases h.typed ht with ⟨-, htype⟩ | ⟨e, he, hm⟩ | ⟨tier, m, -, -, htype⟩
  · cases htype
  · rcases h.told.sound e he with he | ⟨n, -, -, rfl⟩
    · rcases he.makes_plain hm rfl with ⟨-, hk⟩ | ⟨htype, -⟩
      · exact hk
      · cases htype
    · exact hm.elim
  · cases tier <;> cases htype

theorem exists_typed_of_raised (hd : s.bundle.Distinct) (hr : s.bundle.Apart root) {f : RiskFactorRef}
    (hp : s.Walked roots p) (hf : f ∈ p.riskReferences s.asset s.now) (hk : s.bundle.riskFactors.find? f.mrn = some k)
    (hraised : s.Raised k) : ∃ sc, d.graph.Typed (.mrn f.mrn) .riskFactor sc := by
  have hname : (Kind.riskFactor, f.mrn) ∈ s.bundle.names := Bundle.mem_names_riskFactor.mpr ⟨k, hk⟩
  have hfollowed := h.followed p hp _ (Policy.mem_references_riskFactor.mpr ⟨f, hf, rfl⟩) k hk
  have hmem := (hfollowed.2 hraised.1).2 hraised.2 _ List.mem_cons_self
  have hhas : d.graph.Has (.mrn f.mrn) := by
    rw [h.drawn, Graph.drawAll_has h.blank.linked.unique]
    refine .inr ⟨_, List.mem_append_left _ hmem, _, _, hraised.2, ?_, rfl, rfl⟩
    rw [← Keyed.key_of_find? hk]
  obtain ⟨t, sc, ht⟩ := hhas.typed
  refine ⟨sc, ?_⟩
  rcases h.typed ht with ⟨hroot, -⟩ | ⟨e, he, hm⟩ | ⟨tier, m, hi, hn, -⟩
  · exact absurd hroot (hr.ne_mrn hname (by simp))
  · rcases h.told.makes he hm with ⟨role, q, hq, hi, -⟩ | ⟨n, -, -, rfl, -⟩ | ⟨n, hi, hn, -⟩
    · rw [← Role.mrn_of_identity hi.symm] at hname
      exact absurd (hd.kind_eq hname (Bundle.query_named hq)) (by simp)
    · exact ht
    · rw [Identity.mrn.inj hi] at hname
      exact absurd (hd.kind_eq hname hn) (by simp)
  · rw [Identity.mrn.inj hi] at hname
    have := hd.kind_eq hname hn
    cases tier <;> cases this

theorem riskFactor_job (hd : s.bundle.Distinct) (hr : s.bundle.Apart root) :
    (∃ sc, d.graph.Typed i .riskFactor sc) ↔ ∃ p f k, s.Walked roots p ∧ f ∈ p.riskReferences s.asset s.now ∧
      s.bundle.riskFactors.find? f.mrn = some k ∧ s.Raised k ∧ i = .mrn f.mrn := by
  constructor
  · rintro ⟨sc, ht⟩
    exact h.exists_raised ht
  · rintro ⟨p, f, k, hp, hf, hk, hraised, rfl⟩
    exact h.exists_typed_of_raised hd hr hp hf hk hraised

theorem magnitude_iff {x : Float32} : NameMap.get? d.magnitudes m = some x ↔
    ∃ p f k, s.Walked roots p ∧ f ∈ p.riskReferences s.asset s.now ∧ s.bundle.riskFactors.find? f.mrn = some k ∧
      s.Raised k ∧ .weigh m x ∈ s.raising k := by
  rw [h.magnitudes]
  exact h.told.magnitude_iff (h.weightless m) h.followed

end Rounds

end Setting

theorem Bundle.exists_rounds {b : Bundle} {r : Request} {res : Resolution} (hb : b.Distinct) (h : b.resolve r = .ok res) :
    b.Apart res.root ∧ ∃ path start log rest walked d,
      (b.setting r).Rounds res.root r.target.assigned path start log rest walked d ∧
        res.graph = d.graph.shareMrns ∧ res.magnitudes = d.magnitudes := by
  have hp := hb.proper r
  obtain ⟨scope, root, d, -, hd, rfl⟩ := resolve_eq_ok.mp h
  unfold draft at hd
  cases ht : r.target with
  | policy m =>
    rw [ht] at hd
    cases hm : b.policies.find? m with
    | none => simp [hm] at hd
    | some p =>
      simp only [hm, Except.ok.injEq, Prod.mk.injEq] at hd
      obtain ⟨rfl, rfl⟩ := hd
      obtain rfl := Keyed.key_of_find? hm
      obtain ⟨log, rest, walked, hrounds⟩ := Setting.exists_rounds_policy hp hm
      exact ⟨hb.apart_policy hm, _, _, log, rest, walked, _, hrounds, rfl, rfl⟩
  | asset asset policies frameworks =>
    simp only [ht, Except.ok.injEq, Prod.mk.injEq] at hd
    obtain ⟨rfl, rfl⟩ := hd
    obtain ⟨log, rest, walked, hrounds⟩ := Setting.exists_rounds_asset hp asset policies frameworks
    exact ⟨hb.apart_root, _, _, log, rest, walked, _, hrounds, rfl, rfl⟩

end Compliance
