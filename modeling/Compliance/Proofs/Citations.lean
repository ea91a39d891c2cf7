import Compliance.Proofs.Materialization

namespace Compliance

def QueryRef.evidenceImpact (r : QueryRef) : Impact :=
  { scoring := if r.action = .ignore then .ignoreScore else .unspecified, weight := r.impact }

def Evidence.citation : Evidence → Option (Role × QueryRef)
  | .query role r => some (role, r)
  | .control _ => none

theorem ControlMap.citations_links (e : ControlMap) :
    e.links.filterMap Evidence.citation = e.checks.map (.check, ·) ++ e.queries.map (.data, ·) := by
  have hquery : ∀ (role : Role) (l : List QueryRef), l.filterMap (Evidence.citation ∘ .query role) = l.map (role, ·) :=
    fun role l => congrFun List.filterMap_eq_map' l
  have hcontrol : ∀ l : List Mrn, l.filterMap (Evidence.citation ∘ .control) = [] :=
    fun l => List.filterMap_eq_nil_iff.mpr fun _ _ => rfl
  rw [links, List.filterMap_append, List.filterMap_append, List.filterMap_map, List.filterMap_map, List.filterMap_map,
    hquery, hquery, hcontrol, List.append_nil]

section

open scoped Classical

/-- What the maps in force of a control cite, in the order in which they declare it. -/
noncomputable def Bundle.citations (b : Bundle) (frameworks : List Mrn) (g : Graph) (m : Mrn) : List (Role × QueryRef) :=
  ((b.attested frameworks g).filter (·.mrn == m)).flatMap fun e => e.checks.map (.check, ·) ++ e.queries.map (.data, ·)

theorem Bundle.mem_citations {b : Bundle} {frameworks : List Mrn} {g : Graph} {m : Mrn} {x : Role × QueryRef} :
    x ∈ b.citations frameworks g m ↔ ∃ e ∈ b.attested frameworks g, e.mrn = m ∧ x.2 ∈ e.asked x.1 := by
  obtain ⟨role, r⟩ := x
  simp only [citations, List.mem_flatMap, List.mem_filter, beq_iff_eq, and_assoc]
  refine exists_congr fun e => and_congr_right fun _ => and_congr_right fun _ => ?_
  cases role <;> simp [ControlMap.asked]

namespace Setting

/-- A citation that is not deactivated, of a query that has the given job in the role in which it is cited. -/
def Evinces (s : Setting) (policies : List Mrn) (x : Role × QueryRef) (i : Identity) : Prop :=
  x.2.action ≠ .deactivate ∧ ∃ q, s.Materialized policies x.1 q ∧ q.mrn = x.2.mrn ∧ x.1.identity q = i

structure Evidenced (s : Setting) (policies frameworks : List Mrn) (g : Graph) (m : Mrn) : Prop where
  edge : ∀ i, (g.Edge (.mrn m) i ∧ g.Holds i fun j => j.type.isQuery = true) ↔
    ∃ map ∈ s.bundle.maps, map.InForce s.bundle frameworks g ∧ ∃ e ∈ map.controls, e.mrn = m ∧
      ∃ role, ∃ r ∈ e.asked role, s.Evinces policies (role, r) i
  impact : ∀ i, g.Holds i (fun j => j.type.isQuery = true) → ∀ w, g.Weighs (.mrn m) i w ↔
    ∃ before x after, s.bundle.citations frameworks g m = before ++ x :: after ∧ s.Evinces policies x i ∧
      (∀ y ∈ before, ¬s.Evinces policies y i) ∧ w = x.2.evidenceImpact

variable {s : Setting} {policies frameworks ms : List Mrn} {asset m : Mrn} {g : Graph} {c : ControlScope} {d₀ d : Draft}
  {log log' : List Edit} {i : Identity} {w : Impact} {x : Role × QueryRef} {start : Draft} {whole : List Edit}
  {tail : List (Mrn × Bool)}

theorem Evinces.congr (hp : ∀ m p, s.bundle.policies.find? m = some p → (m ∈ ms ↔ m ∈ policies)) :
    s.Evinces ms x i ↔ s.Evinces policies x i := by
  simp only [Evinces, materialized_congr hp]

namespace Assessed

variable (h : s.Assessed asset ms frameworks c d₀ d log log')
include h

theorem control_weighs (ht : (m, true) :: tail <:+ d.controls) :
    d.graph.Weighs (.mrn m) i w ↔ (c.linksAt d₀ tail m).lookup i = some w := by
  have hm : (m, true) ∈ d.controls := ht.subset List.mem_cons_self
  have hname := h.named_of_settled hm
  have honce : (d.controls.map Prod.fst).Nodup := h.reviewed.finished.once
  have hlookup : ∀ {w}, d.graph.Weighs (.mrn m) i w → (c.linksAt d₀ tail m).lookup i = some w := by
    intro w hw
    rw [h.drawn] at hw
    rcases Graph.weighs_of_drawAll h.unique h.grounded hw with hw | ⟨e, he, hties⟩
    · exact absurd (h.graph ▸ Graph.Holds.has hw) (h.free (t := .control) hname)
    · cases h.reviewed.audited.sound e he with
      | note x => exact hties.elim
      | settle t n made => exact hties.elim
      | control ht' =>
        obtain ⟨hi, hl⟩ := hties
        obtain rfl := Identity.mrn.inj hi
        obtain ⟨-, rfl⟩ := eq_of_suffix honce ht ht'
        exact hl
      | framework hf _ =>
        rw [Identity.mrn.inj hties.1] at hname
        cases h.proper.distinct.kind_eq hname (Bundle.mem_names_framework.mpr ⟨_, hf⟩)
      | hang hf => exact absurd hties.1 (h.proper.distinct.ne_assetRoot hname)
  refine ⟨hlookup, fun hl => ?_⟩
  obtain ⟨-, -, hedit⟩ := h.reviewed.audited.settled m true tail ht
  have hedge : d.graph.Edge (.mrn m) i := by
    rw [h.drawn, Graph.drawAll_edge h.unique h.grounded]
    exact .inr ⟨_, hedit rfl, w, rfl, hl⟩
  obtain ⟨w', hw⟩ := Graph.edge_iff.mp hedge
  obtain rfl := Option.some.inj (hl.symm.trans (hlookup hw))
  exact hw

theorem linked_iff : d₀.linked x.1 x.2 = some (i, w) ↔ s.Evinces ms x i ∧ w = x.2.evidenceImpact := by
  rw [Draft.linked, Option.ite_none_left_eq_some, Action.activation_eq_absent, Option.map_eq_some_iff]
  simp only [h.index_iff, Prod.mk.injEq, Evinces]
  have himpact : Impact.of x.2.action.activation .unspecified x.2.impact = x.2.evidenceImpact := Impact.of_activation ..
  rw [himpact]
  grind

theorem citations_eq : s.bundle.citations frameworks d.graph m = (c.evidenceOf m).filterMap Evidence.citation := by
  rw [ControlScope.evidenceOf, List.filterMap_flatMap, h.evidence, Bundle.citations]
  exact List.flatMap_congr fun e _ => e.citations_links.symm

theorem linksAt_lookup (ht : tail <:+ d.controls) {role : Role} {q : Query} (hq : q ∈ s.bundle.queries.entries) :
    (c.linksAt d₀ tail m).lookup (role.identity q) =
      ((s.bundle.citations frameworks d.graph m).filterMap fun x => d₀.linked x.1 x.2).lookup (role.identity q) := by
  rw [ControlScope.linksAt, h.citations_eq, List.filterMap_filterMap]
  apply lookup_filterMap_congr
  intro x _ w
  cases x with
  | query role r => rfl
  | control n =>
    constructor
    · intro hl
      obtain ⟨-, hn, hl⟩ := ControlScope.evidenceLink_control.mp hl
      obtain rfl := Role.mrn_of_identity (Prod.mk.inj hl).1.symm
      cases h.proper.distinct.kind_eq (h.named_of_settled (ht.subset hn)) (Bundle.query_named hq)
    · intro hl
      cases hl

theorem query_weighs (hs : Survey s assetRoot policies start d whole)
    (hm : d.graph.Holds (.mrn m) fun j => j.type = .control) (hi : d.graph.Holds i fun j => j.type.isQuery = true) :
    d.graph.Weighs (.mrn m) i w ↔
      ((s.bundle.citations frameworks d.graph m).filterMap fun x => d₀.linked x.1 x.2).lookup i = some w := by
  obtain ⟨tail, ht, -⟩ := h.settled (h.typed_iff.mp hm)
  obtain ⟨role, q, hq, rfl⟩ := (hs.holds_isQuery_iff h.proper.distinct h.proper.distinct.apart_root).mp hi
  rw [h.control_weighs ht, h.linksAt_lookup ((List.suffix_cons ..).trans ht) hq.mem]

theorem evidenced (hs : Survey s assetRoot policies start d whole)
    (hp : ∀ m p, s.bundle.policies.find? m = some p → (m ∈ ms ↔ m ∈ policies))
    (hm : d.graph.Holds (.mrn m) fun j => j.type = .control) : s.Evidenced policies frameworks d.graph m := by
  have hlinked : ∀ x i w, d₀.linked x.1 x.2 = some (i, w) ↔ s.Evinces policies x i ∧ w = x.2.evidenceImpact := by
    intro x i w
    rw [h.linked_iff, Evinces.congr hp]
  refine ⟨fun i => ?_, fun i hi w => ?_⟩
  · constructor
    · rintro ⟨he, hi⟩
      obtain ⟨w, hw⟩ := Graph.edge_iff.mp he
      obtain ⟨x, hx, hl⟩ := List.mem_filterMap.mp (mem_of_lookup ((h.query_weighs hs hm hi).mp hw))
      obtain ⟨e, he, hem, hr⟩ := Bundle.mem_citations.mp hx
      obtain ⟨map, hmap, hforce, he⟩ := Bundle.mem_attested.mp he
      exact ⟨map, hmap, hforce, e, he, hem, x.1, x.2, hr, ((hlinked ..).mp hl).1⟩
    · rintro ⟨map, hmap, hforce, e, he, hem, role, r, hr, hx⟩
      obtain ⟨-, q, hq, -, hqi⟩ := id hx
      have hi := (hs.holds_isQuery_iff h.proper.distinct h.proper.distinct.apart_root).mpr ⟨role, q, hq, hqi⟩
      have hmem : (role, r) ∈ s.bundle.citations frameworks d.graph m :=
        Bundle.mem_citations.mpr ⟨e, Bundle.mem_attested.mpr ⟨map, hmap, hforce, he⟩, hem, hr⟩
      have hlink : (i, r.evidenceImpact) ∈ (s.bundle.citations frameworks d.graph m).filterMap fun x => d₀.linked x.1 x.2 :=
        List.mem_filterMap.mpr ⟨_, hmem, (hlinked (role, r) ..).mpr ⟨hx, rfl⟩⟩
      obtain ⟨w, hw⟩ := mem_map_fst_iff_lookup.mp (List.mem_map_of_mem hlink)
      exact ⟨Graph.edge_iff.mpr ⟨w, (h.query_weighs hs hm hi).mpr hw⟩, hi⟩
  · have hnone : ∀ x : Role × QueryRef, (∀ w, d₀.linked x.1 x.2 ≠ some (i, w)) ↔ ¬s.Evinces policies x i := by
      intro x
      simp only [ne_eq, hlinked, not_and]
      exact ⟨fun hn hx => hn _ hx rfl, fun hn _ hx => absurd hx hn⟩
    rw [h.query_weighs hs hm hi, lookup_filterMap_eq_some]
    simp only [hnone]
    simp only [hlinked]
    grind

end Assessed

theorem Evidenced.shareMrns (h : s.Evidenced policies frameworks g m) : s.Evidenced policies frameworks g.shareMrns m := by
  have hquery : ∀ i, (g.shareMrns.Holds i fun j => j.type.isQuery = true) ↔ g.Holds i fun j => j.type.isQuery = true :=
    fun _ => Graph.shareMrns_holds fun _ _ => Iff.rfl
  refine ⟨fun i => ?_, fun i hi w => ?_⟩
  · rw [Graph.shareMrns_edge, hquery, h.edge]
    simp only [FrameworkMap.inForce_shareMrns]
  · rw [Graph.shareMrns_weighs, h.impact i ((hquery i).mp hi) w]
    simp only [Bundle.citations, Bundle.attested_shareMrns]

end Setting

variable {b : Bundle} {asset : Mrn} {policies frameworks : List Mrn} {filters : PredicateSet} {now : Timestamp}
  {res : Resolution}

theorem Bundle.evidenced_of_resolve (hb : b.Distinct)
    (h : b.resolve ⟨.asset asset policies frameworks, filters, now⟩ = .ok res) {i : Identity}
    (hj : res.graph.Holds i fun j => j.type = .control) : ∃ m, i = .mrn m ∧
      (b.setting ⟨.asset asset policies frameworks, filters, now⟩).Evidenced policies frameworks res.graph m := by
  obtain ⟨c, d₀, d, log, log', whole, ha, hs, hg⟩ := exists_assessed_of_resolve hb h
  rw [hg] at hj ⊢
  have hcontrol : d.graph.Holds i fun j => j.type = .control := Graph.shareMrns_holds_type.mp hj
  obtain ⟨m, rfl, -⟩ := ha.control_of_typed hcontrol
  exact ⟨m, rfl, (ha.evidenced hs (fun _ _ => Setting.mem_declared_iff) hcontrol).shareMrns⟩

theorem Bundle.resolve_evidenced (hb : b.Distinct)
    (h : b.resolve ⟨.asset asset policies frameworks, filters, now⟩ = .ok res) : ∀ j ∈ res.graph.jobs, j.type = .control →
      ∃ m, j.identity = .mrn m ∧
        (b.setting ⟨.asset asset policies frameworks, filters, now⟩).Evidenced policies frameworks res.graph m := by
  intro j hj ht
  exact evidenced_of_resolve hb h ⟨j, hj, rfl, ht⟩

end

theorem ringBundle_evidenced : (ringBundle ["b", "a"]).Distinct ∧
    ∃ res, (ringBundle ["b", "a"]).resolve auditRequest = .ok res ∧
      (∃ j ∈ res.graph.jobs, j.type = .control ∧ j.identity = .mrn "a") ∧ ∀ j ∈ res.graph.jobs, j.type = .control →
        ∃ m, j.identity = .mrn m ∧ ((ringBundle ["b", "a"]).setting auditRequest).Evidenced ["p"] ["f"] res.graph m := by
  have hb : (ringBundle ["b", "a"]).Distinct := by decide +kernel
  have hs : ((ringBundle ["b", "a"]).scope ["p"]).covers Keyed.empty = true := by decide +kernel
  have h : (ringBundle ["b", "a"]).resolve auditRequest = .ok _ := Bundle.resolve_asset hs
  refine ⟨hb, _, h, ?_, Bundle.resolve_evidenced hb h⟩
  decide +kernel

end Compliance
