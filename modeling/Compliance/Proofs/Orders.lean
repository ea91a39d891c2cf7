import Compliance.Proofs.Adoption

namespace Compliance

namespace Setting

def started (s : Setting) (asset : Mrn) (ms : List Mrn) : List Mrn := ms.flatMap fun m => (s.alone asset m).graph.starts

variable {s : Setting} {ms ms' rest : List Mrn} {log log' : List Edit} {p : Policy} {d d' : Draft} {a : Mrn}
  {i c : Identity} {asset : Mrn} {frameworks : List Mrn}

theorem Assigned.backed_of_has (h : s.Proper) (ha : Assigned s ms (.start assetRoot .unspecified asset) ms log d)
    (ha' : Assigned s ms' (.start assetRoot .unspecified asset) ms' log' d') {m : Mrn} {id : CodeId}
    (hm : d.graph.Backed i m id) (hi : d'.graph.Has i) : ∃ n, d'.graph.Backed i n id := by
  have hb := start_blank assetRoot .unspecified asset
  obtain ⟨role, q, hq, k, hn, hk, hiq, -, rfl⟩ := ha.told.backed hb hm
  obtain ⟨⟨_, n⟩, hx, rfl⟩ := List.mem_map.mp (ha'.reserves h i ⟨role, q, hq, k, hn, hk, hiq⟩ hi)
  obtain ⟨id', hback⟩ := Graph.mem_backing.mp hx
  obtain ⟨role', q', hq', k', hn', hk', hiq', -, rfl⟩ := ha'.told.backed hb hback
  rw [code_eq_of_leafIdentity hq hq' hk hk' (hiq.symm.trans hiq')]
  exact ⟨n, hback⟩

theorem Assigned.resembles (h : s.Proper) (ha : Assigned s ms (.start assetRoot .unspecified asset) ms log d)
    (ha' : Assigned s ms' (.start assetRoot .unspecified asset) ms' log' d')
    (ht : ∀ i t sc, d.graph.Typed i t sc ↔ d'.graph.Typed i t sc) (he : ∀ i c, d.graph.Edge i c ↔ d'.graph.Edge i c) :
    d.graph.Resembles d'.graph := by
  have hb := start_blank assetRoot .unspecified asset
  have has : ∀ i, d.graph.Has i ↔ d'.graph.Has i := fun _ => Graph.has_congr ht
  refine ⟨ht, fun i c w => ?_, fun i id => ?_⟩
  · constructor
    · exact fun hw => ha.told.weighs_of_edge h.distinct hb ha'.told hb hw ((he i c).mp (Graph.edge_iff.mpr ⟨w, hw⟩))
    · exact fun hw => ha'.told.weighs_of_edge h.distinct hb ha.told hb hw ((he i c).mpr (Graph.edge_iff.mpr ⟨w, hw⟩))
  · constructor
    · rintro ⟨m, hm⟩
      exact ha.backed_of_has h ha' hm ((has i).mp hm.has)
    · rintro ⟨m, hm⟩
      exact ha'.backed_of_has h ha hm ((has i).mpr hm.has)

section

variable (h : s.Proper)
include h

theorem United.resembles (hu : United s asset ms) (hu' : United s asset ms') (hm : ∀ m, m ∈ ms ↔ m ∈ ms') :
    (s.together asset ms).graph.Resembles (s.together asset ms').graph := by
  obtain ⟨log, ha⟩ := exists_assigned_together h asset ms
  obtain ⟨log', ha'⟩ := exists_assigned_together h asset ms'
  apply ha.resembles h ha'
  · intro i t sc
    simp only [hu.typed, hu'.typed, hm]
  · intro i c
    simp only [hu.edge, hu'.edge, hm]

theorem draftAsset_resembles (hm : ∀ m, m ∈ ms ↔ m ∈ ms')
    (hr : (s.together asset ms).graph.Resembles (s.together asset ms').graph) (frameworks : List Mrn) :
    (s.draftAsset asset ms frameworks).graph.Resembles (s.draftAsset asset ms' frameworks).graph ∧
      (s.draftAsset asset ms frameworks).magnitudes = (s.draftAsset asset ms' frameworks).magnitudes := by
  obtain ⟨log, ha⟩ := exists_assigned_together h asset ms
  obtain ⟨log', ha'⟩ := exists_assigned_together h asset ms'
  obtain ⟨edits, hev, heq⟩ := exists_frameworks h asset ms frameworks
  obtain ⟨hg, hw⟩ := heq ms (.refl _) rfl
  obtain ⟨hg', hw'⟩ := heq ms' (ha.alike ha' hm) (ha.scopeOf_eq h ha' hr)
  refine ⟨?_, ?_⟩
  · rw [hg, hg']
    exact hr.drawAll (together_unique h asset ms) (together_unique h asset ms') fun e he =>
      (hev e he).grounded (together_has_root h asset ms)
  · rw [hw, hw', ha.magnitudes_eq ha' hm]

theorem exists_draftAsset_survey (asset : Mrn) (hm : ∀ m ∈ ms, s.bundle.isDeclared m = true) (frameworks : List Mrn) :
    ∃ log, Survey s assetRoot ms (.start assetRoot .unspecified asset) (s.draftAsset asset ms frameworks) log := by
  have hs := asset_survey h asset ms frameworks
  rwa [List.filter_eq_self.mpr hm] at hs

theorem draftAsset_starts (asset : Mrn) (hm : ∀ m ∈ ms, s.bundle.isDeclared m = true) (frameworks : List Mrn) :
    (s.draftAsset asset ms frameworks).graph.starts = (s.together asset ms).graph.backing.map Prod.snd := by
  obtain ⟨log, hs⟩ := exists_draftAsset_survey h asset hm frameworks
  rw [hs.starts_eq h.distinct h.distinct.apart_root, draftAsset_backing h]

theorem alone_starts (ha : s.bundle.isDeclared a = true) :
    (s.alone asset a).graph.starts = (s.alone asset a).graph.backing.map Prod.snd := by
  have hgraph : (s.draftAsset asset [a] []).graph = (s.alone asset a).graph := by
    simp [draftAsset, addFrameworks, alone, together]
  rw [← hgraph, draftAsset_starts h asset (by simpa using ha), draftAsset_backing h]

theorem United.execution (hu : United s asset ms) (hm : ∀ m ∈ ms, s.bundle.isDeclared m = true) (frameworks : List Mrn) :
    s.bundle.executionJob (s.draftAsset asset ms frameworks).graph = s.bundle.executionFrom (s.started asset ms) := by
  have hcontributors : ∀ starts, s.bundle.contributors starts = (s.search starts).filterMap (·.2) := fun _ => rfl
  have hstarts : s.started asset ms = ms.flatMap fun m => (s.alone asset m).graph.backing.map Prod.snd :=
    List.flatMap_congr fun m hmem => alone_starts h (hm m hmem)
  rw [Bundle.executionJob, Bundle.executionFrom, Bundle.executionFrom, hcontributors, hcontributors,
    draftAsset_starts h asset hm, hu.search, hstarts]

theorem exists_first (asset a : Mrn) (rest : List Mrn) : ∃ log log',
    Assigned s (a :: rest) (.start assetRoot .unspecified asset) [a] log (s.alone asset a) ∧
      Assigned s (a :: rest) (.start assetRoot .unspecified asset) (a :: rest) (log ++ log') (s.together asset (a :: rest)) := by
  have hfirst : ∀ m ∈ [a], m ∈ a :: rest := by simp
  obtain ⟨log, ha⟩ := exists_assigned h asset hfirst
  obtain ⟨log', hrest⟩ := ha.run h (start_blank ..) asset fun m hm => List.mem_cons_of_mem a hm
  exact ⟨log, log', ha, hrest⟩

theorem first_typed {t : JobType} {sc : ScoringSystem} (ht : (s.alone asset a).graph.Typed i t sc) (rest : List Mrn) :
    (s.together asset (a :: rest)).graph.Typed i t sc := by
  obtain ⟨log, log', ha, hrest⟩ := exists_first h asset a rest
  rw [hrest.told.graph, Graph.drawAll_append, ← ha.told.graph]
  exact ht.drawAll (together_unique h asset [a]) log'

theorem first_edge (hp : s.Walked [a] p) (rest : List Mrn) :
    (s.together asset (a :: rest)).graph.Edge (.mrn p.mrn) c ↔ (s.alone asset a).graph.Edge (.mrn p.mrn) c := by
  obtain ⟨log, log', ha, hrest⟩ := exists_first h asset a rest
  obtain ⟨own, halone⟩ := exists_assigned_together h asset [a]
  have hb := start_blank assetRoot .unspecified asset
  have hname := Bundle.mem_names_policy.mpr ⟨p, hp.declared⟩
  have hr := h.distinct.ne_assetRoot hname
  obtain ⟨⟨_, made⟩, hx, hxp⟩ := List.mem_map.mp (halone.mem_ledger_iff.mpr ⟨p, hp.declared, hp⟩)
  obtain ⟨tail, ht⟩ := exists_suffix_of_mem hx
  obtain rfl : _ = p.mrn := hxp
  have hgrows : (s.alone asset a).policies <:+ (s.together asset (a :: rest)).policies := by
    have := Draft.ledger_suffix (s.alone asset a) log' .policy
    rwa [← ha.told.replay_eq hrest.told] at this
  rw [hrest.told.policy_edge h.distinct hb hr hp.declared (ht.trans hgrows),
    ha.told.policy_edge h.distinct hb hr hp.declared ht]

end

end Setting

end Compliance
