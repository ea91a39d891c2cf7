import Compliance.Proofs.Assignments
import Compliance.Proofs.Concord
import Compliance.Proofs.Rooted

namespace Compliance

namespace Bundle.Evidential

variable {b : Bundle} {root : Identity} {e : Edit} {g : Graph}

theorem grounded (he : b.Evidential root e) (hg : g.Has root) : e.Grounded g := by
  cases he with
  | hang m => exact hg
  | _ => trivial

theorem backing (he : b.Evidential root e) : e.backing = [] := by
  cases he <;> rfl

theorem weighed (he : b.Evidential root e) (m : Mrn) : e.weighed m = none := by
  cases he <;> rfl

theorem not_ties (he : b.Evidential root e) (hd : b.Distinct) {m : Mrn} (hm : (Kind.policy, m) ∈ b.names)
    (hr : .mrn m ≠ root) {c : Identity} {w : Impact} : ¬e.Ties (.mrn m) c w := by
  intro ht
  cases he with
  | @structural t n sc ls hn =>
    rw [Identity.mrn.inj ht.1] at hm
    have := hd.kind_eq hm hn
    cases t <;> cases this
  | hang n => exact hr ht.1
  | _ => exact ht

end Bundle.Evidential

namespace Setting

variable {s : Setting} {ms ms' : List Mrn} {log log' : List Edit} {d d' : Draft} {m : Mrn} {i c : Identity} {asset : Mrn}
  {frameworks : List Mrn}

theorem Assigned.settled_iff (h : s.Proper) (ha : Assigned s ms (.start assetRoot .unspecified asset) ms log d) :
    (m, true) ∈ d.policies ↔ (Kind.policy, m) ∈ s.bundle.names ∧ d.graph.Has (.mrn m) := by
  have hb := start_blank assetRoot .unspecified asset
  constructor
  · intro hm
    exact ⟨Bundle.mem_names_policy.mpr (ha.told.settled_mem hm), ha.told.has_policy hb hm⟩
  · rintro ⟨hm, hg⟩
    rcases (ha.told.has_iff hb).mp hg with hr | ⟨e, he, t, sc, hmakes⟩
    · exact absurd hr (h.distinct.ne_assetRoot hm)
    · rcases ha.told.makes he hmakes with ⟨role, q, hq, hi, -⟩ | ⟨n, hi, hn, -⟩ | ⟨n, hi, -, -, hdone⟩
      · rw [← Role.mrn_of_identity hi.symm] at hm
        exact absurd (h.distinct.kind_eq hm (Bundle.query_named hq)) (by simp)
      · rw [Identity.mrn.inj hi] at hm
        exact absurd (h.distinct.kind_eq hm hn) (by simp)
      · rwa [Identity.mrn.inj hi]

theorem Assigned.lookup_settled (ha : Assigned s ms (.start assetRoot .unspecified asset) ms log d) :
    d.policies.lookup m = some true ↔ (m, true) ∈ d.policies := by
  constructor
  · exact mem_of_lookup
  · intro hm
    obtain ⟨made, hl⟩ := exists_lookup_of_mem (List.mem_map_of_mem hm)
    rw [hl, eq_of_mem_ledger ha.told.once (mem_of_lookup hl) hm]

theorem Assigned.scopeOf_eq (h : s.Proper) (ha : Assigned s ms (.start assetRoot .unspecified asset) ms log d)
    (ha' : Assigned s ms' (.start assetRoot .unspecified asset) ms' log' d') (hr : d.graph.Resembles d'.graph) :
    s.scopeOf frameworks d = s.scopeOf frameworks d' := by
  have hsettled : ∀ m, (d.policies.lookup m == some true) = (d'.policies.lookup m == some true) := by
    intro m
    rw [Bool.eq_iff_iff, beq_iff_eq, beq_iff_eq, ha.lookup_settled, ha'.lookup_settled, ha.settled_iff h,
      ha'.settled_iff h, hr.has]
  simp only [scopeOf, candidateMaps, hsettled]

theorem draftAsset_nil (asset : Mrn) (ms : List Mrn) :
    ∃ events, s.draftAsset asset ms [] = { s.together asset ms with events := events } :=
  ⟨_, addFrameworks_eq []⟩

theorem replay_evidential {root : Identity} (hl : ∀ e ∈ log, s.bundle.Evidential root e) (d : Draft) :
    (d.replay log).magnitudes = d.magnitudes :=
  Draft.replay_magnitudes_of_forall fun e he => (hl e he).weighed

theorem exists_frameworks (h : s.Proper) (asset : Mrn) (ms frameworks : List Mrn) :
    ∃ log, (∀ e ∈ log, s.bundle.Evidential assetRoot e) ∧ ∀ ms', (s.together asset ms).Alike (s.together asset ms') →
      s.scopeOf frameworks (s.together asset ms) = s.scopeOf frameworks (s.together asset ms') →
        (s.draftAsset asset ms' frameworks).graph = (s.together asset ms').graph.drawAll log ∧
          (s.draftAsset asset ms' frameworks).magnitudes = (s.together asset ms').magnitudes := by
  obtain ⟨log, heq, hev, -⟩ := exists_adopted (c := s.scopeOf frameworks (s.together asset ms)) h h.distinct.apart_root
    (scopeOf_evidence frameworks) frameworks (s.together asset ms)
  refine ⟨log, hev, fun ms' ha hc => ?_⟩
  have hadd : s.draftAsset asset ms' frameworks = s.addFrameworks assetRoot frameworks (s.together asset ms') := rfl
  rw [hadd, addFrameworks_eq, ← hc]
  generalize s.together asset ms' = d at ha
  have halike : ∀ xs, (s.together asset ms).Alike { d with events := xs } :=
    fun xs => ⟨ha.frameworks, ha.controls, fun role m => (ha.index role m).trans (by cases role <;> rfl)⟩
  rw [heq _ (halike _), Draft.replay_graph, replay_evidential hev]
  exact ⟨rfl, rfl⟩

theorem drawAll_evidential {root : Identity} {g : Graph} (hu : g.Unique) (hl : ∀ e ∈ log, s.bundle.Evidential root e) :
    (g.drawAll log).backing = g.backing := by
  induction log generalizing g with
  | nil => rfl
  | cons e rest ih =>
    have he := (hl e List.mem_cons_self).backing
    rw [Graph.drawAll_cons, ih (Graph.draw_unique hu e) fun x hx => hl x (List.mem_cons_of_mem _ hx),
      Graph.draw_backing hu (by simp [he]), he, List.filter_nil, List.append_nil]

section

variable (h : s.Proper) (asset : Mrn) (ms frameworks : List Mrn)
include h

theorem together_has_root : (s.together asset ms).graph.Has assetRoot := by
  obtain ⟨log, ha⟩ := exists_assigned_together h asset ms
  exact ha.grown.linked.hasRoot.has

theorem exists_draftAsset : ∃ log, (∀ e ∈ log, s.bundle.Evidential assetRoot e) ∧
    (s.draftAsset asset ms frameworks).graph = (s.together asset ms).graph.drawAll log := by
  obtain ⟨log, hev, heq⟩ := exists_frameworks h asset ms frameworks
  exact ⟨log, hev, (heq ms (.refl _) rfl).1⟩

theorem draftAsset_unique : (s.draftAsset asset ms frameworks).graph.Unique := by
  obtain ⟨log, -, heq⟩ := exists_draftAsset h asset ms frameworks
  rw [heq]
  exact Graph.drawAll_unique (together_unique h asset ms) log

theorem draftAsset_typed {t : JobType} {sc : ScoringSystem} (ht : (s.together asset ms).graph.Typed i t sc) :
    (s.draftAsset asset ms frameworks).graph.Typed i t sc := by
  obtain ⟨log, -, heq⟩ := exists_draftAsset h asset ms frameworks
  rw [heq]
  exact ht.drawAll (together_unique h asset ms) log

theorem draftAsset_edge (hm : (Kind.policy, m) ∈ s.bundle.names) :
    (s.draftAsset asset ms frameworks).graph.Edge (.mrn m) c ↔ (s.together asset ms).graph.Edge (.mrn m) c := by
  obtain ⟨log, hev, heq⟩ := exists_draftAsset h asset ms frameworks
  have hroot := together_has_root h asset ms
  rw [heq, Graph.drawAll_edge (together_unique h asset ms) fun e he => (hev e he).grounded hroot]
  apply or_iff_left
  rintro ⟨e, he, w, ht⟩
  exact (hev e he).not_ties h.distinct hm (h.distinct.ne_assetRoot hm) ht

theorem draftAsset_backing :
    (s.draftAsset asset ms frameworks).graph.backing = (s.together asset ms).graph.backing := by
  obtain ⟨log, hev, heq⟩ := exists_draftAsset h asset ms frameworks
  rw [heq, drawAll_evidential (together_unique h asset ms) hev]

end

theorem Survey.starts_eq {root : Identity} {roots : List Mrn} {start : Draft} (hs : Survey s root roots start d log)
    (hd : s.bundle.Distinct) (hr : s.bundle.Apart root) : d.graph.starts = d.graph.backing.map Prod.snd := by
  apply Graph.starts_eq_backing
  intro j hj ho
  obtain ⟨⟨m, id⟩, ho⟩ := Option.isSome_iff_exists.mp ho
  obtain ⟨role, ht⟩ := hs.isQuery hd hr ⟨j, hj, rfl, ho⟩ ⟨j, hj, rfl, rfl, rfl⟩
  rw [ht]
  cases role <;> rfl

end Setting

end Compliance
