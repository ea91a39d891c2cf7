import Compliance.Proofs.Reviews

namespace Compliance

namespace Setting

variable {s : Setting} {c : ControlScope} {d₀ d : Draft} {ms frameworks : List Mrn} {log log' : List Edit}
  {asset m : Mrn} {i : Identity} {w : Impact} {t : JobType} {sc : ScoringSystem} {e : Edit} {done : List (Mrn × Bool)}

structure Assessed (s : Setting) (asset : Mrn) (ms frameworks : List Mrn) (c : ControlScope) (d₀ d : Draft)
    (log log' : List Edit) : Prop where
  proper : s.Proper
  assigned : Assigned s ms (.start assetRoot .unspecified asset) ms log (s.together asset ms)
  reviewed : s.Reviewed c d₀ frameworks log' d
  scope : c = s.scopeOf frameworks (s.together asset ms)
  graph : d₀.graph = (s.together asset ms).graph
  index : ∀ role, d₀.index role = (s.together asset ms).index role

theorem exists_assessed (h : s.Proper) (asset : Mrn) (ms frameworks : List Mrn) : ∃ c d₀ log log',
    s.Assessed asset ms frameworks c d₀ (s.draftAsset asset ms frameworks) log log' := by
  obtain ⟨log, ha⟩ := exists_assigned_together h asset ms
  obtain ⟨events, log', hr⟩ := exists_reviewed ha.bare frameworks
  exact ⟨_, _, log, log', h, ha, hr, rfl, rfl, fun role => by cases role <;> rfl⟩

namespace Assessed

variable (h : s.Assessed asset ms frameworks c d₀ d log log')
include h

theorem drawn : d.graph = (s.together asset ms).graph.drawAll log' := by
  rw [h.reviewed.audited.eq, Draft.replay_graph, h.graph]

theorem unique : (s.together asset ms).graph.Unique := h.assigned.grown.linked.unique

theorem free {t : Tier} (hm : (t.kind, m) ∈ s.bundle.names) : ¬d₀.graph.Has (.mrn m) := by
  rw [h.graph]
  exact (h.assigned.ground h.proper).free t m hm

theorem named_of_evidence {x : Evidence} (hx : x ∈ c.evidenceOf m) : (Kind.control, m) ∈ s.bundle.names := by
  obtain ⟨e, he, -⟩ := List.mem_flatMap.mp hx
  obtain ⟨he, hm⟩ := List.mem_filter.mp he
  rw [h.scope] at he
  exact Bundle.mem_names_control.mpr ⟨e, scopeOf_evidence frameworks e he, by simpa using hm⟩

theorem named_of_links (hl : c.linksAt d₀ done m ≠ []) : (Kind.control, m) ∈ s.bundle.names := by
  obtain ⟨l, hl⟩ := List.exists_mem_of_ne_nil _ hl
  obtain ⟨x, hx, -⟩ := List.mem_filterMap.mp hl
  exact h.named_of_evidence hx

theorem settled {made : Bool} (hm : (m, made) ∈ d.controls) : ∃ tail, (m, made) :: tail <:+ d.controls ∧
    c.standing m ≠ .absent ∧ (made = true ↔ c.linksAt d₀ tail m ≠ []) ∧
      (made = true → .structural m .control .average (c.linksAt d₀ tail m) ∈ log') := by
  obtain ⟨before, tail, hsplit⟩ := List.append_of_mem hm
  exact ⟨tail, ⟨before, hsplit.symm⟩, h.reviewed.audited.settled m made tail ⟨before, hsplit.symm⟩⟩

theorem named_of_settled (hm : (m, true) ∈ d.controls) : (Kind.control, m) ∈ s.bundle.names := by
  obtain ⟨tail, -, -, hmade, -⟩ := h.settled hm
  exact h.named_of_links (hmade.mp rfl)

theorem makes (he : e ∈ log') (hm : e.Makes i t sc) :
    (∃ m, i = .mrn m ∧ t = .control ∧ (m, true) ∈ d.controls) ∨
      ∃ f, i = .mrn f.mrn ∧ t = .framework ∧ s.bundle.frameworks.find? f.mrn = some f := by
  cases h.reviewed.audited.sound e he with
  | control ht =>
    obtain ⟨-, rfl, rfl, -⟩ := hm
    exact .inl ⟨_, rfl, rfl, ht.subset List.mem_cons_self⟩
  | framework hf =>
    obtain ⟨-, rfl, rfl, -⟩ := hm
    exact .inr ⟨_, rfl, rfl, hf⟩
  | _ => exact hm.elim

theorem typed (ht : d.graph.Typed i t sc) : (s.together asset ms).graph.Typed i t sc ∨
    (∃ m, i = .mrn m ∧ t = .control ∧ (m, true) ∈ d.controls) ∨
      ∃ f, i = .mrn f.mrn ∧ t = .framework ∧ s.bundle.frameworks.find? f.mrn = some f := by
  rw [h.drawn] at ht
  rcases Graph.typed_of_drawAll h.unique ht with ht | ⟨e, he, hm⟩
  · exact .inl ht
  · exact .inr (h.makes he hm)

theorem control_of_typed (ht : d.graph.Holds i fun j => j.type = .control) : ∃ m, i = .mrn m ∧ (m, true) ∈ d.controls := by
  obtain ⟨j, hj, rfl, htype⟩ := ht
  rcases h.typed ⟨j, hj, rfl, htype, rfl⟩ with ⟨k, hk, -, hkt, -⟩ | ⟨m, hi, -, hm⟩ | ⟨f, -, hf, -⟩
  · rcases h.assigned.job hk with ⟨-, hroot⟩ | ⟨role, q, -, -, hq⟩ | ⟨_, _, -, -, ⟨-, hr⟩ | ⟨-, hp⟩⟩
    · cases hkt.symm.trans hroot
    · cases role <;> cases hkt.symm.trans hq
    · cases hkt.symm.trans hr
    · cases hkt.symm.trans hp
  · exact ⟨m, hi, hm⟩
  · cases hf

theorem typed_iff : (d.graph.Holds (.mrn m) fun j => j.type = .control) ↔ (m, true) ∈ d.controls := by
  constructor
  · intro ht
    obtain ⟨n, hi, hn⟩ := h.control_of_typed ht
    rwa [Identity.mrn.inj hi]
  · intro hm
    have hname := h.named_of_settled hm
    obtain ⟨tail, -, -, hmade, hedit⟩ := h.settled hm
    have hhas : d.graph.Has (.mrn m) := by
      rw [h.drawn]
      exact (Graph.drawAll_has h.unique).mpr (.inr ⟨_, hedit rfl, _, _, hmade.mp rfl, rfl, rfl, rfl⟩)
    obtain ⟨j, hj, hi, -⟩ := hhas
    rcases h.typed ⟨j, hj, hi, rfl, rfl⟩ with hold | ⟨n, -, ht, -⟩ | ⟨f, hf, -, hfind⟩
    · exact absurd (h.graph ▸ hold.has) (h.free (t := .control) hname)
    · exact ⟨j, hj, hi, ht⟩
    · rw [Identity.mrn.inj hf] at hname
      cases h.proper.distinct.kind_eq hname (Bundle.mem_names_framework.mpr ⟨f, hfind⟩)

theorem grounded : ∀ e ∈ log', e.Grounded (s.together asset ms).graph := by
  have hroot : (s.together asset ms).graph.Has assetRoot := together_has_root h.proper asset ms
  intro e he
  cases h.reviewed.audited.sound e he with
  | hang _ => exact hroot
  | _ => trivial

theorem standing_of_evidenceLink {x : Evidence} (hm : (Kind.control, m) ∈ s.bundle.names)
    (hl : c.evidenceLink d₀ done x = some (.mrn m, w)) :
    c.standing m ≠ .absent ∧ w = Impact.of (c.standing m) .unspecified none := by
  cases x with
  | query role r =>
    obtain ⟨-, hl⟩ := Option.ite_none_left_eq_some.mp hl
    obtain ⟨i, hi, hl⟩ := Option.map_eq_some_iff.mp hl
    rw [h.index] at hi
    obtain ⟨q, e, hq, hdraw, hent⟩ := h.assigned.lookup_iff.mp hi
    obtain ⟨-, q', hq', -, rfl⟩ := hdraw.entered hq.mem hent
    obtain rfl := Role.mrn_of_identity (Prod.mk.inj hl).1
    cases h.proper.distinct.kind_eq hm (Bundle.query_named hq')
  | control n =>
    obtain ⟨hn, -, hl⟩ := ControlScope.evidenceLink_control.mp hl
    obtain ⟨hi, hw⟩ := Prod.mk.inj hl
    obtain rfl := Identity.mrn.inj hi
    exact ⟨hn, hw.symm⟩

theorem standing_of_frames (hm : (Kind.control, m) ∈ s.bundle.names) (hl : s.Frames c done (.mrn m, w)) :
    c.standing m ≠ .absent ∧ w = Impact.of (c.standing m) .unspecified none := by
  generalize hx : ((.mrn m, w) : Link) = x at hl
  cases hl with
  | control ha _ =>
    obtain ⟨hi, rfl⟩ := Prod.mk.inj hx
    obtain rfl := Identity.mrn.inj hi
    exact ⟨ha, rfl⟩
  | framework _ hf =>
    rw [Identity.mrn.inj (Prod.mk.inj hx).1] at hm
    cases h.proper.distinct.kind_eq hm (Bundle.mem_names_framework.mpr ⟨_, hf⟩)

theorem weighs (hm : (m, true) ∈ d.controls) (hw : d.graph.Weighs i (.mrn m) w) :
    c.standing m ≠ .absent ∧ w = Impact.of (c.standing m) .unspecified none := by
  have hname := h.named_of_settled hm
  rw [h.drawn] at hw
  rcases Graph.weighs_of_drawAll h.unique h.grounded hw with hw | ⟨e, he, hties⟩
  · -- an edge leads to a job, and controls have none before frameworks are walked
    have hedge := h.assigned.grown.linked.forth _ _ (Graph.edge_iff.mpr ⟨w, hw⟩)
    exact absurd (h.graph ▸ hedge.has) (h.free (t := .control) hname)
  · cases h.reviewed.audited.sound e he with
    | note x => exact hties.elim
    | settle t n made => exact hties.elim
    | control ht =>
      obtain ⟨x, -, hx⟩ := List.mem_filterMap.mp (mem_of_lookup hties.2)
      exact h.standing_of_evidenceLink hname hx
    | framework hf hl => exact h.standing_of_frames hname (hl _ (mem_of_lookup hties.2))
    | hang hf =>
      obtain ⟨-, hi, -⟩ := hties
      rw [Identity.mrn.inj hi] at hname
      cases h.proper.distinct.kind_eq hname (Bundle.mem_names_framework.mpr ⟨_, hf⟩)

end Assessed

end Setting

namespace Bundle

variable {b : Bundle} {asset : Mrn} {policies frameworks : List Mrn} {filters : PredicateSet} {now : Timestamp}
  {res : Resolution}

theorem resolve_asset (h : (b.scope policies).covers filters = true) :
    b.resolve ⟨.asset asset policies frameworks, filters, now⟩ =
      .ok (b.finish ⟨.asset asset policies frameworks, filters, now⟩ (b.scope policies) assetRoot
        ((b.setting ⟨.asset asset policies frameworks, filters, now⟩).draftAsset asset (policies.filter b.isDeclared)
          frameworks)) :=
  resolve_eq_ok.mpr ⟨_, _, _, if_pos h, rfl, rfl⟩

theorem exists_assessed_of_resolve (hb : b.Distinct)
    (h : b.resolve ⟨.asset asset policies frameworks, filters, now⟩ = .ok res) : ∃ c d₀ d log log' whole,
      (b.setting ⟨.asset asset policies frameworks, filters, now⟩).Assessed asset (policies.filter b.isDeclared) frameworks
        c d₀ d log log' ∧
      Setting.Survey (b.setting ⟨.asset asset policies frameworks, filters, now⟩) assetRoot policies
        (.start assetRoot .unspecified asset) d whole ∧ res.graph = d.graph.shareMrns := by
  obtain ⟨scope, root, d, -, hd, rfl⟩ := resolve_eq_ok.mp h
  obtain ⟨-, rfl⟩ := Prod.mk.inj (Except.ok.inj hd)
  have hs := hb.proper ⟨.asset asset policies frameworks, filters, now⟩
  obtain ⟨c, d₀, log, log', ha⟩ := Setting.exists_assessed hs asset (policies.filter b.isDeclared) frameworks
  obtain ⟨whole, hsurvey⟩ := Setting.asset_survey hs asset policies frameworks
  exact ⟨c, d₀, _, log, log', whole, ha, hsurvey, rfl⟩

end Bundle

end Compliance
