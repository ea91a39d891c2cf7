import Compliance.Proofs.Acyclic
import Compliance.Proofs.Attestation
import Compliance.Proofs.CodeJobs

namespace Compliance

@[simp] theorem Role.isQuery_jobType (role : Role) : role.jobType.isQuery = true := by cases role <;> rfl

theorem Role.jobType_inj {role role' : Role} (h : role.jobType = role'.jobType) : role = role' := by
  cases role <;> cases role' <;> first | rfl | cases h

namespace Setting

variable {s : Setting} {root : Identity} {roots path : List Mrn} {start d : Draft} {log : List Edit} {role role' : Role}
  {q q' v e : Query} {i : Identity} {t : JobType} {sc : ScoringSystem}

theorem Materialized.mem (h : s.Materialized roots role q) : q ∈ s.bundle.queries.entries := by
  obtain ⟨e, path, he, ht, -⟩ := h
  exact Trail.mem ht he.mem

theorem Materialized.code (h : s.Materialized roots role q) (hn : q.isComposite = false) : ∃ c, q.code = some c := by
  obtain ⟨e, path, -, -, hy⟩ := h
  exact (yields_leaf_iff hn).mp hy

theorem materialized_leaf_iff {c : Code} (hn : q.isComposite = false) (hc : q.code = some c) :
    s.Materialized roots role q ↔ s.Live roots role q := by
  rw [live_iff]
  constructor
  · rintro ⟨e, path, he, ht, -⟩
    exact ⟨e, he, ht.variants⟩
  · rintro ⟨e, he, hp⟩
    obtain ⟨path, ht, -⟩ := exists_trail he.mem hp
    exact ⟨e, path, he, ht, .code hn hc⟩

theorem materialized_of_variant (he : s.Referenced roots role e) (ht : s.Trail ([], e) (path, q)) (hp : q.mrn ∉ path)
    (hv : s.Variant q v) (hy : s.Yields (q.mrn :: path) v) :
    s.Materialized roots role q ∧ s.Materialized roots role v :=
  ⟨⟨e, path, he, ht, .variant hp hv hy⟩, e, _, he, ht.tail ⟨hp, hv, rfl⟩, hy⟩

theorem Materialized.exists_variant (h : s.Materialized roots role q) (hq : q.isComposite = true) :
    ∃ e path v, s.Referenced roots role e ∧ s.Trail ([], e) (path, q) ∧ q.mrn ∉ path ∧ s.Variant q v ∧
      s.Yields (q.mrn :: path) v := by
  obtain ⟨e, path, he, ht, hy⟩ := h
  obtain ⟨hp, v, hv, hy⟩ := (yields_composite_iff hq).mp hy
  exact ⟨e, path, v, he, ht, hp, hv, hy⟩

theorem Materialized.eq_of_identity (h : s.Materialized roots role q) (hq' : q' ∈ s.bundle.queries.entries)
    (hi : role.identity q = role'.identity q') : q' = q ∧ q.isComposite = true ∨ role = role' ∧ q.isComposite = false ∧
      q'.isComposite = false ∧ q'.code.map Code.id = q.code.map Code.id := by
  by_cases hc : q.isComposite = true
  · rw [Role.identity_of_composite hc] at hi
    exact .inl ⟨eq_of_mrn hq' h.mem (Role.mrn_of_identity hi.symm), hc⟩
  · have hn : q.isComposite = false := by simpa using hc
    obtain ⟨c, hc⟩ := h.code hn
    obtain ⟨hr, hn', c', hc', hid⟩ := leafIdentity_eq h.mem hq' hn hc ((Role.identity_of_code hn hc).symm.trans hi)
    exact .inr ⟨hr, hn, hn', by rw [hc, hc', Option.map_some, Option.map_some, hid]⟩

theorem Draws.materialized {x : Edit} (he : s.Referenced roots role e) (h : s.Draws role ([], e) x)
    (hm : x.Makes i t sc) : ∃ q, s.Materialized roots role q ∧ role.identity q = i ∧ t = role.jobType := by
  cases h with
  | leaf ht hn hc =>
    obtain ⟨rfl, rfl, -⟩ := hm
    exact ⟨_, ⟨e, _, he, ht, .code hn hc⟩, Role.identity_of_code hn hc, rfl⟩
  | composite ht hp hl =>
    obtain ⟨-, rfl, rfl, -⟩ := hm
    obtain ⟨v, hv, hy⟩ := variantLinks_ne_nil.mp hl
    exact ⟨_, ⟨e, _, he, ht, .variant hp hv hy⟩, Role.identity_of_composite hv.isComposite, rfl⟩

theorem Materialized.exists_makes (h : s.Materialized roots role q) : ∃ e x, s.Referenced roots role e ∧
    s.Draws role ([], e) x ∧ x.Makes (role.identity q) role.jobType .unspecified := by
  obtain ⟨e, path, he, ht, hy⟩ := h
  cases hy with
  | code hn hc => exact ⟨e, _, he, .leaf ht hn hc, Role.identity_of_code hn hc, rfl, rfl⟩
  | variant hp hv hy =>
    have hl : s.variantLinks role path q ≠ [] := variantLinks_ne_nil.mpr ⟨_, hv, hy⟩
    exact ⟨e, _, he, .composite ht hp hl, hl, Role.identity_of_composite hv.isComposite, rfl, rfl⟩

namespace Survey

variable (h : Survey s root roots start d log)
include h

theorem materialized_has (hq : s.Materialized roots role q) : d.graph.Has (role.identity q) := by
  obtain ⟨e, x, he, hdraw, hm⟩ := hq.exists_makes
  rw [h.graph, Graph.drawAll_has h.blank.linked.unique]
  exact .inr ⟨x, h.complete role e x he hdraw, _, _, hm⟩

theorem exists_materialized_of_typed (hd : s.bundle.Distinct) (hr : s.bundle.Apart root)
    (hq : q ∈ s.bundle.queries.entries) (ht : d.graph.Typed (role.identity q) t sc) :
    ∃ role' q', s.Materialized roots role' q' ∧ role'.identity q' = role.identity q ∧ t = role'.jobType := by
  rcases h.typed ht with hroot | ⟨role', e, x, he, hdraw, hm⟩ | ⟨k, m, hi, hname, hk, -⟩
  · exact absurd hroot (identity_ne_root hr hq)
  · obtain ⟨q', hq', hi, ht⟩ := hdraw.materialized he hm
    exact ⟨role', q', hq', hi, ht⟩
  · obtain rfl := Role.mrn_of_identity hi
    exact absurd (hd.kind_eq hname (Bundle.query_named hq)) hk

theorem type_of_materialized (hd : s.bundle.Distinct) (hr : s.bundle.Apart root) (hq : s.Materialized roots role q)
    (ht : d.graph.Typed (role.identity q) t sc) :
    t = role.jobType ∨ q.isComposite = true ∧ ∃ role', s.Materialized roots role' q ∧ t = role'.jobType := by
  obtain ⟨role', q', hq', hi, htype⟩ := h.exists_materialized_of_typed hd hr hq.mem ht
  rcases hq.eq_of_identity hq'.mem hi.symm with ⟨rfl, hc⟩ | ⟨rfl, -⟩
  · exact .inr ⟨hc, role', hq', htype⟩
  · exact .inl htype

theorem holds_isQuery_iff (hd : s.bundle.Distinct) (hr : s.bundle.Apart root) :
    (d.graph.Holds i fun j => j.type.isQuery = true) ↔ ∃ role q, s.Materialized roots role q ∧ role.identity q = i := by
  constructor
  · rintro ⟨j, hj, hi, hquery⟩
    rcases h.typed ⟨j, hj, hi, rfl, rfl⟩ with hroot | ⟨role, e, x, he, hdraw, hm⟩ | ⟨k, m, -, -, -, ht⟩
    · obtain ⟨l, hl, hli, ht, -⟩ := h.grown.linked.hasRoot
      obtain rfl := h.unique.eq_of_mem hj hl (hi.trans (hroot.trans hli.symm))
      rw [ht] at hquery
      cases hquery
    · obtain ⟨q, hq, hqi, -⟩ := hdraw.materialized he hm
      exact ⟨role, q, hq, hqi⟩
    · cases hquery.symm.trans ht
  · rintro ⟨role, q, hq, rfl⟩
    obtain ⟨j, hj, hi, -⟩ := h.materialized_has hq
    obtain ⟨role', -, -, -, ht⟩ := h.exists_materialized_of_typed hd hr hq.mem ⟨j, hj, hi, rfl, rfl⟩
    exact ⟨j, hj, hi, (congrArg JobType.isQuery ht).trans role'.isQuery_jobType⟩

end Survey

end Setting

end Compliance
