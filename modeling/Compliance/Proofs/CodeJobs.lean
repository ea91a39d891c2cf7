import Compliance.Proofs.Rooted

namespace Compliance

namespace Setting

variable {s : Setting} {root : Identity} {roots : List Mrn} {start d : Draft} {log : List Edit}

theorem leafIdentity_eq {role role' : Role} {q q' : Query} {c : Code} (hq : q ∈ s.bundle.queries.entries)
    (hq' : q' ∈ s.bundle.queries.entries) (hn : q.isComposite = false) (hc : q.code = some c)
    (h : Draft.leafIdentity role q c = role'.identity q') :
    role = role' ∧ q'.isComposite = false ∧ ∃ c', q'.code = some c' ∧ c'.id = c.id := by
  cases role with
  | check =>
    unfold Role.identity at h
    split at h
    · cases h
    · rename_i hn'
      split at h
      · rename_i c' hc'
        cases role' with
        | check => exact ⟨rfl, by simpa using hn', c', hc', (Identity.code.inj h).symm⟩
        | data => cases h
      · cases h
  | data =>
    obtain rfl := eq_of_mrn hq' hq (Role.mrn_of_identity h.symm)
    cases role' with
    | check => simp [Role.identity, hn, hc, Draft.leafIdentity] at h
    | data => exact ⟨rfl, hn, c, hc, rfl⟩

theorem Survey.leaf_typed (h : Survey s root roots start d log) (hd : s.bundle.Distinct) (hr : s.bundle.Apart root)
    {role : Role} {q : Query} {c : Code} {t : JobType} {sc : ScoringSystem} (hq : q ∈ s.bundle.queries.entries)
    (hn : q.isComposite = false) (hc : q.code = some c) (ht : d.graph.Typed (Draft.leafIdentity role q c) t sc) :
    t = role.jobType := by
  rcases h.typed ht with hroot | ⟨role', e', x, he', hdraw', hm⟩ | ⟨k, m, hi, hname, hk, -⟩
  · exact absurd hroot (leafIdentity_ne_root hr hq c)
  · obtain ⟨q', hq', hi, rfl, -⟩ := hdraw'.makes he'.mem hm
    obtain ⟨rfl, -⟩ := leafIdentity_eq hq hq' hn hc hi
    rfl
  · cases role with
    | check => cases hi
    | data =>
      obtain rfl := Identity.mrn.inj hi
      exact absurd (hd.kind_eq hname (Bundle.query_named hq)) hk

theorem Survey.backed_iff_live (h : Survey s root roots start d log) (i : Identity) (id : CodeId) :
    (∃ m, d.graph.Backed i m id) ↔ ∃ role q c, s.Live roots role q ∧ q.isComposite = false ∧ q.code = some c ∧
      i = Draft.leafIdentity role q c ∧ id = c.id := by
  constructor
  · rintro ⟨m, hb⟩
    obtain ⟨role, e, q, c, k, he, hdraw, hi, -, hid⟩ := h.backed hb
    obtain ⟨hn, hc⟩ : q.isComposite = false ∧ q.code = some c := by
      cases hdraw with
      | leaf _ hn hc => exact ⟨hn, hc⟩
    exact ⟨role, q, c, (exists_draws_leaf_iff hn hc).mp ⟨e, k, he, hdraw⟩, hn, hc, hi, hid⟩
  · rintro ⟨role, q, c, hlive, hn, hc, rfl, rfl⟩
    obtain ⟨e, k, he, hdraw⟩ := (exists_draws_leaf_iff hn hc).mpr hlive
    have hu := h.blank.linked.unique
    obtain ⟨m, id, hb⟩ := Graph.exists_backed_drawAll hu (h.complete role e _ he hdraw) ⟨rfl, rfl, rfl⟩
    rw [← h.graph] at hb
    obtain ⟨role', e', q', c', k', he', hdraw', hi, -, rfl⟩ := h.backed hb
    obtain ⟨hq', hn', hc'⟩ : q' ∈ s.bundle.queries.entries ∧ q'.isComposite = false ∧ q'.code = some c' := by
      cases hdraw' with
      | leaf ht hn hc => exact ⟨Trail.mem ht he'.mem, hn, hc⟩
    have hq : q ∈ s.bundle.queries.entries := by
      cases hdraw with
      | leaf ht _ _ => exact Trail.mem ht he.mem
    obtain ⟨-, -, c₀, hc₀, he₀⟩ := leafIdentity_eq hq hq' hn hc (hi.trans (Role.identity_of_code hn' hc').symm)
    obtain rfl := Option.some.inj (hc'.symm.trans hc₀)
    exact ⟨m, he₀ ▸ hb⟩

end Setting

theorem Setting.Live.mem {s : Setting} {roots : List Mrn} {role : Role} {q : Query} (h : s.Live roots role q) :
    q ∈ s.bundle.queries.entries := by
  cases h with
  | referenced h => exact h.mem
  | variant _ hv => exact hv.mem

theorem Bundle.code_jobs_iff_live {b : Bundle} {r : Request} {scope : Scope} (hb : b.Distinct)
    (hs : b.checkScope r = .ok scope) : ∃ res, b.resolve r = .ok res ∧ ∀ i type id,
      (∃ j ∈ res.graph.jobs, j.identity = i ∧ j.type = type ∧ ∃ m, j.origin = some (m, id)) ↔
        ∃ role q c, (b.setting r).Live r.target.assigned role q ∧ q.isComposite = false ∧ q.code = some c ∧
          i = Draft.leafIdentity role q c ∧ type = role.jobType ∧ id = c.id := by
  obtain ⟨res, h⟩ := exists_resolution hs
  obtain ⟨hr, start, d, log, hsurvey, hg⟩ := exists_survey_of_resolve hb h
  refine ⟨res, h, fun i type id => ?_⟩
  have hjobs : (∃ j ∈ res.graph.jobs, j.identity = i ∧ j.type = type ∧ ∃ m, j.origin = some (m, id)) ↔
      d.graph.Holds i fun j => j.type = type ∧ ∃ m, j.origin = some (m, id) := by
    rw [hg]
    exact Graph.shareMrns_holds fun _ _ => Iff.rfl
  rw [hjobs]
  constructor
  · rintro ⟨j, hj, hi, ht, m, ho⟩
    obtain ⟨role, q, c, hlive, hn, hc, rfl, rfl⟩ := (hsurvey.backed_iff_live i id).mp ⟨m, j, hj, hi, ho⟩
    exact ⟨role, q, c, hlive, hn, hc, rfl, hsurvey.leaf_typed hb hr hlive.mem hn hc ⟨j, hj, hi, ht, rfl⟩, rfl⟩
  · rintro ⟨role, q, c, hlive, hn, hc, rfl, rfl, rfl⟩
    obtain ⟨m, hback⟩ := (hsurvey.backed_iff_live _ _).mpr ⟨role, q, c, hlive, hn, hc, rfl, rfl⟩
    obtain ⟨t, sc, htyped⟩ := hback.has.typed
    obtain rfl := hsurvey.leaf_typed hb hr hlive.mem hn hc htyped
    obtain ⟨j, hj, hi, ho, ht, -⟩ := hsurvey.unique.holds_and hback htyped
    exact ⟨j, hj, hi, ht, m, ho⟩

theorem mutualBundle_code_jobs : mutualBundle.Distinct ∧
    mutualBundle.checkScope (assetRequest ["p"]) = .ok (mutualBundle.scope ["p"]) ∧
      ∃ res, mutualBundle.resolve (assetRequest ["p"]) = .ok res ∧ ∀ i type id,
        (∃ j ∈ res.graph.jobs, j.identity = i ∧ j.type = type ∧ ∃ m, j.origin = some (m, id)) ↔
          ∃ role q c, (mutualBundle.setting (assetRequest ["p"])).Live ["p"] role q ∧ q.isComposite = false ∧
            q.code = some c ∧ i = Draft.leafIdentity role q c ∧ type = role.jobType ∧ id = c.id := by
  have hb : mutualBundle.Distinct := by decide +kernel
  have hs : (mutualBundle.scope ["p"]).covers Keyed.empty = true := by decide +kernel
  have hc := Bundle.checkScope_assetRequest hs
  exact ⟨hb, hc, Bundle.code_jobs_iff_live hb hc⟩

end Compliance
