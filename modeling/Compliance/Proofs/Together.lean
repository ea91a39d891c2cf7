import Compliance.Proofs.Drafts
import Compliance.Proofs.Preorder

namespace Compliance

namespace Setting

section

variable (s : Setting) (asset : Mrn)

def together (ms : List Mrn) : Draft := ms.foldl (s.assign asset) (.start assetRoot .unspecified asset)

def alone (m : Mrn) : Draft := s.together asset [m]

def CodeMade (i : Identity) : Prop :=
  ∃ role, ∃ q ∈ s.bundle.queries.entries, ∃ c, q.isComposite = false ∧ q.code = some c ∧ i = Draft.leafIdentity role q c

end

variable {s : Setting} {root : Identity} {roots path ms : List Mrn} {log : List Edit} {p : Policy} {d d₀ t : Draft}
  {e : Edit} {m : Mrn} {i c : Identity} {asset : Mrn}

theorem exists_query_of_codeMade (h : s.CodeMade (.mrn m)) : ∃ q ∈ s.bundle.queries.entries,
    q.mrn = m ∧ q.isComposite = false := by
  obtain ⟨role, q, hq, c, hc, -, hi⟩ := h
  cases role with
  | check => cases hi
  | data => exact ⟨q, hq, (Identity.mrn.inj hi).symm, hc⟩

theorem not_codeMade (h : s.bundle.Distinct) {k : Kind} (hk : k ≠ .query) (hm : (k, m) ∈ s.bundle.names) :
    ¬s.CodeMade (.mrn m) := by
  intro hc
  obtain ⟨q, hq, rfl, -⟩ := exists_query_of_codeMade hc
  exact hk (h.kind_eq hm (Bundle.query_named hq))

theorem Draws.reserves {role : Role} {x : List Mrn × Query} (h : s.Draws role x e)
    (hx : x.2 ∈ s.bundle.queries.entries) : e.Reserves s.CodeMade := by
  cases h with
  | leaf ht hn hc =>
    refine ⟨fun y hy => ?_, fun i t sc _ hm => ?_⟩
    · rw [List.mem_singleton.mp hy]
      exact ⟨_, _, Trail.mem ht hx, _, hn, hc, rfl⟩
    · exact List.mem_singleton.mpr hm.1
  | composite ht hp hl =>
    refine ⟨fun y hy => (List.not_mem_nil hy).elim, fun i t sc hi hm => ?_⟩
    obtain ⟨v, hv, -⟩ := variantLinks_ne_nil.mp hl
    obtain ⟨-, rfl, -⟩ := hm
    obtain ⟨q', hq', he, hn⟩ := exists_query_of_codeMade hi
    obtain rfl := eq_of_mrn hq' (Trail.mem ht hx) he
    simp [hv.isComposite] at hn

theorem structural_reserves {ty : JobType} {sc : ScoringSystem} {ls : List Link} (h : s.bundle.Distinct) {k : Kind}
    (hk : k ≠ .query) (hm : (k, m) ∈ s.bundle.names) : (Edit.structural m ty sc ls).Reserves s.CodeMade := by
  refine ⟨fun y hy => (List.not_mem_nil hy).elim, fun i t sc hi hmakes => ?_⟩
  obtain ⟨-, rfl, -⟩ := hmakes
  exact absurd hi (not_codeMade h hk hm)

theorem reserves_of_bare (hb : e.backing = []) (hm : ∀ i t sc, ¬e.Makes i t sc) : e.Reserves s.CodeMade :=
  ⟨fun y hy => by simp [hb] at hy, fun i t sc _ hi => (hm i t sc hi).elim⟩

theorem Told.reserves (h : s.bundle.Distinct) (ht : s.Told root roots d₀ path log d) (he : e ∈ log) :
    e.Reserves s.CodeMade := by
  rcases ht.sound e he with he | ⟨n, -, -, rfl⟩
  · cases he with
    | query hq hd => exact hd.reserves hq.mem
    | raising hp hf hk ha hr he =>
      rw [← Keyed.key_of_find? hk] at hk
      simp only [raising, List.mem_cons, List.not_mem_nil, or_false] at he
      rcases he with rfl | rfl
      · exact structural_reserves h (k := .riskFactor) (by simp) (Bundle.mem_names_riskFactor.mpr ⟨_, hk⟩)
      · exact reserves_of_bare rfl fun _ _ _ => id
    | policy hp ht => exact structural_reserves h (k := .policy) (by simp) (Bundle.mem_names_policy.mpr ⟨_, hp.declared⟩)
    | _ => exact reserves_of_bare rfl fun _ _ _ => id
  · exact reserves_of_bare rfl fun _ _ _ => id

theorem Told.grounded (ht : s.Told root roots d₀ path log d) {g : Graph} (hg : g.Has root) : ∀ e ∈ log, e.Grounded g := by
  intro e he
  rcases ht.sound e he with he | ⟨n, -, -, rfl⟩
  · cases he with
    | query hq hd => cases hd <;> trivial
    | raising hp hf hk ha hr he =>
      simp only [raising, List.mem_cons, List.not_mem_nil, or_false] at he
      rcases he with rfl | rfl <;> trivial
    | _ => trivial
  · exact hg

theorem start_reserves (h : s.bundle.Distinct) (sc : ScoringSystem) :
    (Draft.start assetRoot sc asset).graph.Reserves s.CodeMade := by
  intro i hi hg
  obtain rfl := ((start_blank assetRoot sc asset).has i).mp hg
  obtain ⟨q, hq, hm, -⟩ := exists_query_of_codeMade hi
  exact absurd hm (h.noRoot _ (Bundle.query_named hq))

theorem eq_of_suffix {l : List (Mrn × Bool)} (hl : (l.map Prod.fst).Nodup) {a b : Bool} {tail tail' : List (Mrn × Bool)}
    (h : (m, a) :: tail <:+ l) (h' : (m, b) :: tail' <:+ l) : a = b ∧ tail = tail' := by
  induction l with
  | nil => simp at h
  | cons x rest ih =>
    obtain ⟨hx, hrest⟩ := List.nodup_cons.mp hl
    have head : ∀ {c : Bool} {l' : List (Mrn × Bool)}, (m, c) :: l' <:+ rest → m ∈ rest.map Prod.fst :=
      fun hs => List.mem_map_of_mem (hs.subset List.mem_cons_self)
    rcases List.suffix_cons_iff.mp h with he | hs
    · obtain ⟨rfl, rfl⟩ := List.cons.inj he
      rcases List.suffix_cons_iff.mp h' with he' | hs'
      · obtain ⟨hab, rfl⟩ := List.cons.inj he'
        exact ⟨(Prod.mk.inj hab).2.symm, rfl⟩
      · exact absurd (head hs') hx
    · rcases List.suffix_cons_iff.mp h' with he' | hs'
      · obtain ⟨rfl, -⟩ := List.cons.inj he'
        exact absurd (head hs) hx
      · exact ih hrest hs hs'

theorem Told.edge_iff (h : s.Told root roots d₀ path log d) (hb : Blank root d₀) : d.graph.Edge i c ↔
    ∃ e ∈ log, ∃ w, e.Ties i c w := by
  rw [h.graph, Graph.drawAll_edge hb.linked.unique (h.grounded ((hb.has root).mpr rfl))]
  exact or_iff_right (hb.edgeless i c)

theorem mem_map_fst_iff_lookup {ls : List Link} : c ∈ ls.map Prod.fst ↔ ∃ w, ls.lookup c = some w := by
  induction ls with
  | nil => simp
  | cons l rest ih =>
    rw [List.map_cons, List.mem_cons, ih, List.lookup_cons]
    by_cases hc : c = l.1
    · simp [hc]
    · have hb : (c == l.1) = false := beq_eq_false_iff_ne.mpr hc
      simp [hc, hb]

theorem Told.exists_of_ties (hd : s.bundle.Distinct) (h : s.Told root roots d₀ path log d)
    (hm : (Kind.policy, m) ∈ s.bundle.names) {w : Impact} (he : e ∈ log) (hties : e.Ties (.mrn m) c w) :
    (∃ p tail, s.bundle.policies.find? m = some p ∧ (m, true) :: tail <:+ d.policies ∧
      (s.linksAt tail p).lookup c = some w) ∨ .mrn m = root ∧ ∃ n ∈ roots, (n, true) ∈ d.policies := by
  rcases h.sound e he with he | ⟨n, hn, hdone, rfl⟩
  · cases he with
    | query hq hdraw =>
      cases hdraw with
      | leaf _ _ _ => exact hties.elim
      | composite htrail _ _ =>
        rw [Identity.mrn.inj hties.1] at hm
        exact absurd (hd.kind_eq hm (Bundle.query_named (Trail.mem htrail hq.mem))) (by simp)
    | raising _ _ hk _ _ he =>
      rw [← Keyed.key_of_find? hk] at hk
      simp only [raising, List.mem_cons, List.not_mem_nil, or_false] at he
      rcases he with rfl | rfl
      · rw [Identity.mrn.inj hties.1] at hm
        exact absurd (hd.kind_eq hm (Bundle.mem_names_riskFactor.mpr ⟨_, hk⟩)) (by simp)
      · exact hties.elim
    | policy hp ht =>
      obtain ⟨hi, hl⟩ := hties
      obtain rfl := Identity.mrn.inj hi
      exact .inl ⟨_, _, hp.declared, ht, hl⟩
    | _ => exact hties.elim
  · exact .inr ⟨hties.1, n, hn, hdone⟩

theorem Told.lookup_of_ties (hd : s.bundle.Distinct) (h : s.Told root roots d₀ path log d) (hr : .mrn p.mrn ≠ root)
    (hp : s.bundle.policies.find? p.mrn = some p) {made : Bool} {tail : List (Mrn × Bool)}
    (ht : (p.mrn, made) :: tail <:+ d.policies) {w : Impact} (he : e ∈ log) (hties : e.Ties (.mrn p.mrn) c w) :
    (s.linksAt tail p).lookup c = some w := by
  rcases h.exists_of_ties hd (Bundle.mem_names_policy.mpr ⟨p, hp⟩) he hties with ⟨p', tail', hp', ht', hl⟩ | ⟨hroot, -⟩
  · obtain rfl := Option.some.inj (hp.symm.trans hp')
    obtain ⟨-, rfl⟩ := eq_of_suffix h.once ht ht'
    exact hl
  · exact absurd hroot hr

theorem Told.policy_edge (hd : s.bundle.Distinct) (h : s.Told root roots d₀ path log d) (hb : Blank root d₀)
    (hr : .mrn p.mrn ≠ root) (hp : s.bundle.policies.find? p.mrn = some p) {made : Bool} {tail : List (Mrn × Bool)}
    (ht : (p.mrn, made) :: tail <:+ d.policies) :
    d.graph.Edge (.mrn p.mrn) c ↔ c ∈ (s.linksAt tail p).map Prod.fst := by
  obtain ⟨q, hq, hw, hmade, hs⟩ := h.settled _ _ _ ht
  obtain rfl := Option.some.inj (hp.symm.trans hq)
  rw [h.edge_iff hb]
  constructor
  · rintro ⟨e, he, w, hties⟩
    exact mem_map_fst_iff_lookup.mpr ⟨w, h.lookup_of_ties hd hr hp ht he hties⟩
  · intro hc
    have hne : s.linksAt tail p ≠ [] := fun hn => by simp [hn] at hc
    obtain ⟨w, hl⟩ := mem_map_fst_iff_lookup.mp hc
    exact ⟨_, hs (hmade.mpr hne), w, rfl, hl⟩

theorem Told.policy_weighs (hd : s.bundle.Distinct) (h : s.Told root roots d₀ path log d) (hb : Blank root d₀)
    (hr : .mrn p.mrn ≠ root) (hp : s.bundle.policies.find? p.mrn = some p) {made : Bool} {tail : List (Mrn × Bool)}
    (ht : (p.mrn, made) :: tail <:+ d.policies) {w : Impact} :
    d.graph.Weighs (.mrn p.mrn) c w ↔ (s.linksAt tail p).lookup c = some w := by
  have hlookup : ∀ {w}, d.graph.Weighs (.mrn p.mrn) c w → (s.linksAt tail p).lookup c = some w := by
    intro w hw
    rw [h.graph] at hw
    rcases Graph.weighs_of_drawAll hb.linked.unique (h.grounded ((hb.has root).mpr rfl)) hw with hw | ⟨e, he, hties⟩
    · exact absurd (Graph.edge_iff.mpr ⟨w, hw⟩) (hb.edgeless _ c)
    · exact h.lookup_of_ties hd hr hp ht he hties
  refine ⟨hlookup, fun hl => ?_⟩
  obtain ⟨w', hw⟩ := Graph.edge_iff.mp ((h.policy_edge hd hb hr hp ht).mpr (mem_map_fst_iff_lookup.mpr ⟨w, hl⟩))
  obtain rfl := Option.some.inj (hl.symm.trans (hlookup hw))
  exact hw

theorem settled_of_mem_linksAt (hd : s.bundle.Distinct) {done : List (Mrn × Bool)} (hm : (Kind.policy, m) ∈ s.bundle.names)
    (hmem : .mrn m ∈ (s.linksAt done p).map Prod.fst) : (m, true) ∈ done := by
  obtain ⟨l, hl, hlm⟩ := List.mem_map.mp hmem
  obtain ⟨r, -, hlink⟩ := List.mem_filterMap.mp hl
  cases r with
  | query role r =>
    obtain ⟨q, ha, -, rfl⟩ := queryLink_eq_some.mp hlink
    rw [← Role.mrn_of_identity hlm] at hm
    exact absurd (hd.kind_eq hm (Bundle.query_named ha.mem)) (by simp)
  | riskFactor n =>
    obtain ⟨⟨k, hk, -⟩, rfl⟩ := referenceLink_riskFactor_eq_some.mp hlink
    obtain rfl := Identity.mrn.inj hlm
    exact absurd (hd.kind_eq hm (Bundle.mem_names_riskFactor.mpr ⟨k, hk⟩)) (by simp)
  | policy r =>
    obtain ⟨-, hdone, rfl⟩ := referenceLink_policy_eq_some.mp hlink
    obtain rfl := Identity.mrn.inj hlm
    exact hdone

theorem linksAt_congr (hd : s.bundle.Distinct) {tail tail' : List (Mrn × Bool)}
    (ht : ∀ x ∈ tail, (Kind.policy, x.1) ∈ s.bundle.names) (ht' : ∀ x ∈ tail', (Kind.policy, x.1) ∈ s.bundle.names)
    (hc : ∀ c, c ∈ (s.linksAt tail p).map Prod.fst ↔ c ∈ (s.linksAt tail' p).map Prod.fst) :
    s.linksAt tail p = s.linksAt tail' p := by
  have linked : ∀ {done : List (Mrn × Bool)} {r : PolicyRef}, .policy r ∈ p.references s.asset s.now →
      s.overrides.effective p.mrn r.mrn r.action ≠ .deactivate → (r.mrn, true) ∈ done →
        .mrn r.mrn ∈ (s.linksAt done p).map Prod.fst :=
    fun hr ha hm => List.mem_map_of_mem (List.mem_filterMap.mpr ⟨_, hr, referenceLink_policy_eq_some.mpr ⟨ha, hm, rfl⟩⟩)
  apply List.filterMap_congr
  intro r hr
  cases r with
  | query role r => rfl
  | riskFactor m => rfl
  | policy r =>
    by_cases ha : s.overrides.effective p.mrn r.mrn r.action = .deactivate
    · simp [referenceLink, ha]
    · have hiff : (r.mrn, true) ∈ tail ↔ (r.mrn, true) ∈ tail' := by
        constructor
        · intro hm
          exact settled_of_mem_linksAt hd (ht _ hm) ((hc _).mp (linked hr ha hm))
        · intro hm
          exact settled_of_mem_linksAt hd (ht' _ hm) ((hc _).mpr (linked hr ha hm))
      simp only [referenceLink, hiff]

theorem Told.names (h : s.Told root roots d₀ path log d) {tail : List (Mrn × Bool)} (ht : tail <:+ d.policies) :
    ∀ x ∈ tail, (Kind.policy, x.1) ∈ s.bundle.names := by
  intro x hx
  obtain ⟨p, hp⟩ := h.settled_mem (ht.subset hx)
  exact Bundle.mem_names_policy.mpr ⟨p, hp⟩

theorem accord_of_edges (hd : s.bundle.Distinct) {roots' : List Mrn} {seen : List Edit} {d₁ : Draft}
    (hb₁ : Blank assetRoot d₁) (hb : Blank assetRoot d₀) (ht : s.Told assetRoot roots' d₁ [] seen t)
    (h : s.Told assetRoot roots d₀ [] log d)
    (he : ∀ p, s.bundle.policies.find? p.mrn = some p → p.mrn ∈ t.policies.map Prod.fst →
      p.mrn ∈ d.policies.map Prod.fst → ∀ c, t.graph.Edge (.mrn p.mrn) c ↔ d.graph.Edge (.mrn p.mrn) c) :
    s.Accord t.policies d.policies := by
  intro m made tail made' tail' hs hs' p hp
  obtain rfl := Keyed.key_of_find? hp
  have hr := hd.ne_assetRoot (Bundle.mem_names_policy.mpr ⟨p, hp⟩)
  have hc : ∀ c, c ∈ (s.linksAt tail p).map Prod.fst ↔ c ∈ (s.linksAt tail' p).map Prod.fst := by
    intro c
    rw [← ht.policy_edge hd hb₁ hr hp hs, ← h.policy_edge hd hb hr hp hs']
    exact he p hp (List.mem_map_of_mem (hs.subset List.mem_cons_self))
      (List.mem_map_of_mem (hs'.subset List.mem_cons_self)) c
  have hl := linksAt_congr hd (ht.names ((List.suffix_cons ..).trans hs)) (h.names ((List.suffix_cons ..).trans hs')) hc
  obtain ⟨q, hq, -, hmade, -⟩ := ht.settled _ _ _ hs
  obtain ⟨q', hq', -, hmade', -⟩ := h.settled _ _ _ hs'
  obtain rfl := Option.some.inj (hp.symm.trans hq)
  obtain rfl := Option.some.inj (hp.symm.trans hq')
  rw [← hl] at hmade'
  exact ⟨Bool.eq_iff_iff.mpr (hmade.trans hmade'.symm), hl⟩

theorem Walked.exists_root (h : s.Walked ms p) : ∃ m ∈ ms, s.Walked [m] p := by
  induction h with
  | root hm hp => exact ⟨_, hm, .root List.mem_cons_self hp⟩
  | included _ hi ih =>
    obtain ⟨m, hm, hw⟩ := ih
    exact ⟨m, hm, .included hw hi⟩

theorem Assigned.mem_ledger_iff (h : Assigned s ms d₀ ms log d) :
    m ∈ d.policies.map Prod.fst ↔ ∃ p, s.bundle.policies.find? m = some p ∧ s.Walked ms p := by
  constructor
  · intro hm
    obtain ⟨⟨_, made⟩, hx, rfl⟩ := List.mem_map.mp hm
    obtain ⟨tail, ht⟩ := exists_suffix_of_mem hx
    obtain ⟨p, hp, hw, -⟩ := h.told.settled _ _ _ ht
    exact ⟨p, hp, hw⟩
  · rintro ⟨p, hp, hw⟩
    induction hw generalizing m with
    | root hn hq =>
      have hm := h.met _ hn _ hq
      rwa [← Keyed.key_of_find? hq, Keyed.key_of_find? hp] at hm
    | included hw hi ih =>
      obtain ⟨g, hg, r, hr, ha, hq⟩ := hi
      have hf := h.told.followed _ (ih hw.declared) _ hw.declared _ (Policy.mem_references_policy.mpr ⟨g, hg, hr⟩) ha _ hq
      rw [← Keyed.key_of_find? hp, Keyed.key_of_find? hq]
      exact hf.resolve_right List.not_mem_nil

theorem exists_assigned_together (h : s.Proper) (asset : Mrn) (ms : List Mrn) :
    ∃ log, Assigned s ms (.start assetRoot .unspecified asset) ms log (s.together asset ms) :=
  exists_assigned h asset fun _ hm => hm

theorem Assigned.reserves (h : s.Proper) (ha : Assigned s roots (.start assetRoot .unspecified asset) ms log d) :
    d.graph.Reserves s.CodeMade := by
  rw [ha.told.graph]
  exact (start_reserves h.distinct .unspecified).drawAll (start_blank ..).linked.unique fun e he =>
    ha.told.reserves h.distinct he

theorem start_laid {base : Graph} (hr : base.Has assetRoot) :
    Graph.Laid base (Draft.start assetRoot .unspecified asset).graph base := by
  have hb := start_blank assetRoot .unspecified asset
  refine ⟨fun i => ?_, fun i t sc => ?_, fun i c => ?_, ?_⟩
  · rw [hb.has]
    constructor
    · exact .inl
    · rintro (hi | rfl)
      · exact hi
      · exact hr
  · constructor
    · exact .inl
    · rintro (hi | ⟨hn, hi⟩)
      · exact hi
      · obtain rfl := (hb.has i).mp hi.has
        exact absurd hr hn
  · exact (or_iff_left (hb.edgeless i c)).symm
  · have hnil : (Draft.start assetRoot .unspecified asset).graph.backing = [] := by simp [Graph.backing, start_jobs]
    rw [hnil, List.filter_nil, List.append_nil]

theorem laid_together (h : s.Proper)
    (hacc : s.Accord (s.together asset ms).policies (s.alone asset m).policies) :
    Graph.Laid (s.together asset ms).graph (s.alone asset m).graph (s.together asset (ms ++ [m])).graph := by
  have hb := start_blank assetRoot .unspecified asset
  obtain ⟨seen, ha⟩ := exists_assigned_together h asset ms
  obtain ⟨log, ha'⟩ := exists_assigned_together h asset [m]
  obtain ⟨made, log', he⟩ := policy_entered h h.distinct.apart_root hb []
    (fun n hn hroot => absurd hroot (h.distinct.ne_assetRoot hn)) asset m
    (fun p hp => (.root List.mem_cons_self hp : s.Walked [m] p)) [] _ (start_told assetRoot .unspecified asset)
  have halone : s.alone asset m = (Draft.start assetRoot .unspecified asset).replay (log' ++ hangingPolicy m made) :=
    assign_eq he.eq
  have hps : (s.alone asset m).policies = ((Draft.start assetRoot .unspecified asset).replay log').policies := by
    rw [halone, Draft.replay_append]
    exact hanging_policies ..
  have hbeside : Beside (s.together asset ms) (.start assetRoot .unspecified asset) (s.together asset ms) := by
    intro ty n
    have hnil : (Draft.start assetRoot .unspecified asset).ledger ty = [] := by cases ty <;> rfl
    rw [hnil, List.lookup_nil, Option.or_none]
  rw [hps] at hacc
  -- the walk of the last policy alone is thinned by what the others have drawn already
  obtain ⟨short, heq, hthin, -⟩ := he.echo seen _ _ ⟨⟨ms, _, ha.told⟩, by simp⟩ hbeside hacc
  have htogether : s.together asset (ms ++ [m]) = (s.together asset ms).replay (short ++ hangingPolicy m made) := by
    rw [together, List.foldl_append]
    exact assign_eq heq
  have hroot : (s.together asset ms).graph.Has assetRoot := ha.grown.linked.hasRoot.has
  have hgraph : ∀ e ∈ log' ++ hangingPolicy m made, (∀ g : Graph, g.Has assetRoot → e.Grounded g) ∧ e.Reserves s.CodeMade := by
    intro e hm
    rcases List.mem_append.mp hm with hm | hm
    · exact ⟨fun g hg => he.told.grounded hg e hm, he.told.reserves h.distinct hm⟩
    · obtain ⟨-, rfl⟩ := mem_hangingPolicy.mp hm
      exact ⟨fun g hg => hg, reserves_of_bare rfl fun _ _ _ => id⟩
  rw [htogether, Draft.replay_graph, halone, Draft.replay_graph]
  -- laid over the graph of the others, the thinned log draws what the whole log draws
  refine (start_laid hroot).drawAll (hthin.append (.refl _)) ha.grown.linked.unique hb.linked.unique ?_ (ha.reserves h)
    (start_reserves h.distinct .unspecified) (fun e he => (hgraph e he).2) ?_
  · exact fun e he => ⟨(hgraph e he).1 _ hroot, (hgraph e he).1 _ ((hb.has _).mpr rfl)⟩
  · intro e he
    exact ⟨fun i t sc hm => (ha.told.has_iff hb).mpr (.inr ⟨e, he, t, sc, hm⟩),
      fun i c w hties => (ha.told.edge_iff hb).mpr ⟨e, he, w, hties⟩⟩

end Setting

end Compliance
