import Compliance.Proofs.Survey

namespace Compliance

namespace Graph

structure WellRooted (root : Identity) (g : Graph) : Prop where
  distinct : (g.jobs.map (·.identity)).Nodup
  hasRoot : ∃ j ∈ g.jobs, j.identity = root ∧ j.type = .root ∧ j.parents = []
  oneRoot : ∀ j ∈ g.jobs, j.type = .root → j.identity = root
  parents : ∀ j ∈ g.jobs, ∀ i ∈ j.parents, ∃ k ∈ g.jobs, k.identity = i ∧ j.identity ∈ k.children.map Prod.fst
  children : ∀ j ∈ g.jobs, ∀ i ∈ j.children.map Prod.fst, ∃ k ∈ g.jobs, k.identity = i ∧ j.identity ∈ k.parents
  once : ∀ j ∈ g.jobs, j.parents.Nodup
  onWay : ∀ j ∈ g.jobs, j.identity ≠ root → ∃ k ∈ g.jobs, (k.type = .check ∨ k.type = .dataQuery) ∧
    k.origin.isSome ∧ g.Reaches root j.identity ∧ g.Reaches j.identity k.identity

theorem shareMrns_holds {g : Graph} {i : Identity} {p : Job → Prop} (hp : ∀ j l, p { j with mrns := l } ↔ p j) :
    g.shareMrns.Holds i p ↔ g.Holds i p := by
  simp only [Holds, shareMrns, List.mem_map]
  constructor
  · rintro ⟨_, ⟨j, hj, rfl⟩, hi, hpj⟩
    split at hi
    · split at hpj
      · exact ⟨j, hj, hi, (hp j _).mp hpj⟩
      · exact ⟨j, hj, hi, hpj⟩
    · split at hpj
      · exact ⟨j, hj, hi, (hp j _).mp hpj⟩
      · exact ⟨j, hj, hi, hpj⟩
  · rintro ⟨j, hj, hi, hpj⟩
    refine ⟨_, ⟨j, hj, rfl⟩, ?_, ?_⟩
    · split
      · exact hi
      · exact hi
    · split
      · exact (hp j _).mpr hpj
      · exact hpj

theorem shareMrns_identities (g : Graph) : g.shareMrns.jobs.map (·.identity) = g.jobs.map (·.identity) := by
  simp only [shareMrns, List.map_map]
  apply List.map_congr_left
  intro j _
  simp only [Function.comp_apply]
  split <;> rfl

theorem shareMrns_typed {g : Graph} {i : Identity} {t : JobType} {sc : ScoringSystem} :
    g.shareMrns.Typed i t sc ↔ g.Typed i t sc :=
  shareMrns_holds fun _ _ => Iff.rfl

theorem shareMrns_holds_type {g : Graph} {i : Identity} {t : JobType} :
    (g.shareMrns.Holds i fun j => j.type = t) ↔ g.Holds i fun j => j.type = t :=
  shareMrns_holds fun _ _ => Iff.rfl

theorem shareMrns_weighs {g : Graph} {i c : Identity} {w : Impact} : g.shareMrns.Weighs i c w ↔ g.Weighs i c w :=
  shareMrns_holds fun _ _ => Iff.rfl

theorem shareMrns_edge {g : Graph} {i c : Identity} : g.shareMrns.Edge i c ↔ g.Edge i c :=
  shareMrns_holds fun _ _ => Iff.rfl

theorem shareMrns_linked {g : Graph} {root : Identity} (h : g.Linked root) : g.shareMrns.Linked root where
  unique := by
    rw [Unique, shareMrns_identities]
    exact h.unique
  hasRoot := (shareMrns_holds fun _ _ => Iff.rfl).mpr h.hasRoot
  oneRoot i hi := h.oneRoot i ((shareMrns_holds fun _ _ => Iff.rfl).mp hi)
  forth i c he := (shareMrns_holds fun _ _ => Iff.rfl).mpr (h.forth i c (shareMrns_edge.mp he))
  back c i hp := shareMrns_edge.mpr (h.back c i ((shareMrns_holds fun _ _ => Iff.rfl).mp hp))
  children i hi := h.children i ((shareMrns_holds fun _ _ => Iff.rfl).mp hi)
  parents i hi := h.parents i ((shareMrns_holds fun _ _ => Iff.rfl).mp hi)

theorem shareMrns_reaches {g : Graph} {i c : Identity} : g.shareMrns.Reaches i c ↔ g.Reaches i c := by
  have he : g.shareMrns.Edge = g.Edge := by
    funext i c
    exact propext shareMrns_edge
  rw [Reaches, he]
  rfl

end Graph

namespace Bundle

variable {b : Bundle} {r : Request} {res : Resolution}

theorem resolve_eq_ok : b.resolve r = .ok res ↔ ∃ scope root d, b.checkScope r = .ok scope ∧
    b.draft r = .ok (root, d) ∧ res = b.finish r scope root d := by
  simp only [resolve, run]
  cases hs : b.checkScope r with
  | error e => simp
  | ok scope =>
    cases hd : b.draft r with
    | error e => simp
    | ok x =>
      obtain ⟨root, d⟩ := x
      simp [eq_comm]

theorem resolve_of_error {e : ResolveError} (h : b.checkScope r = .error e) : b.resolve r = .error e := by
  simp only [resolve, run, h]

theorem exists_resolution {scope : Scope} (h : b.checkScope r = .ok scope) : ∃ res, b.resolve r = .ok res := by
  have hd : ∃ root d, b.draft r = .ok (root, d) := by
    unfold draft
    unfold checkScope at h
    cases ht : r.target with
    | asset asset policies frameworks => exact ⟨_, _, rfl⟩
    | policy m =>
      simp only [ht] at h
      split at h
      · rename_i hm
        obtain ⟨p, hp⟩ := Option.isSome_iff_exists.mp hm
        exact ⟨.mrn m, (b.setting r).draftPolicy p, by simp only [hp]⟩
      · cases h
  obtain ⟨root, d, hd⟩ := hd
  exact ⟨_, resolve_eq_ok.mpr ⟨scope, root, d, h, hd, rfl⟩⟩

theorem exists_survey_of_resolve (hb : b.Distinct) (h : b.resolve r = .ok res) : b.Apart res.root ∧
    ∃ start d log, Setting.Survey (b.setting r) res.root r.target.assigned start d log ∧
      res.graph = d.graph.shareMrns := by
  obtain ⟨scope, root, d, -, hd, rfl⟩ := resolve_eq_ok.mp h
  obtain ⟨hr, start, log, hs⟩ := exists_survey hb hd
  exact ⟨hr, start, d, log, hs, rfl⟩

end Bundle

namespace Setting

variable {s : Setting} {root : Identity} {roots : List Mrn} {start d : Draft} {log : List Edit}

theorem Survey.isQuery (h : Survey s root roots start d log) (hd : s.bundle.Distinct) (hr : s.bundle.Apart root)
    {i : Identity} {m : Mrn} {id : CodeId} {t : JobType} {sc : ScoringSystem} (hb : d.graph.Backed i m id)
    (ht : d.graph.Typed i t sc) : ∃ role : Role, t = role.jobType := by
  obtain ⟨role, e, q, c, k, he, hdraw, rfl, -, -⟩ := h.backed hb
  have hq : q ∈ s.bundle.queries.entries := by
    cases hdraw with
    | leaf ht _ _ => exact Trail.mem ht he.mem
  rcases h.typed ht with hroot | ⟨role', e', x, he', hdraw', hm⟩ | ⟨k, m, hi, hn, hk, -⟩
  · exact absurd hroot (leafIdentity_ne_root hr hq c)
  · obtain ⟨-, -, -, rfl, -⟩ := hdraw'.makes he'.mem hm
    exact ⟨role', rfl⟩
  · cases role with
    | check => cases hi
    | data =>
      obtain rfl := Identity.mrn.inj hi
      exact absurd (hd.kind_eq hn (Bundle.query_named hq)) hk

end Setting

theorem Bundle.resolve_wellRooted {b : Bundle} {r : Request} {res : Resolution} (hb : b.Distinct)
    (h : b.resolve r = .ok res) : res.graph.WellRooted res.root := by
  obtain ⟨hr, start, d, log, hs, hg⟩ := exists_survey_of_resolve hb h
  have hl : res.graph.Linked res.root := by
    rw [hg]
    exact Graph.shareMrns_linked hs.grown.linked
  refine ⟨hl.unique, ?_, ?_, ?_, ?_, ?_, ?_⟩
  · obtain ⟨j, hj, hi, ht, hp⟩ := hl.hasRoot
    exact ⟨j, hj, hi, ht, hp⟩
  · exact fun j hj ht => hl.oneRoot _ ⟨j, hj, rfl, ht⟩
  · exact fun j hj i hi => hl.back _ _ ⟨j, hj, rfl, hi⟩
  · exact fun j hj i hi => hl.forth _ _ ⟨j, hj, rfl, hi⟩
  · intro j hj
    by_contra hn
    exact hl.parents _ ⟨j, hj, rfl, hn⟩
  · intro j hj hne
    rw [hg] at hj ⊢
    have hhas : d.graph.Has j.identity := (Graph.shareMrns_holds fun _ _ => Iff.rfl).mp ⟨j, hj, rfl, trivial⟩
    obtain ⟨i, m, id, hreach, hb'⟩ := hs.grown.supported _ hhas hne
    obtain ⟨x, hx, hup⟩ := hs.grown.covered _ hhas
    obtain rfl : x = res.root := by simpa using hx
    obtain ⟨k, hk, rfl, horigin⟩ := (Graph.shareMrns_holds fun _ _ => Iff.rfl).mpr hb'
    have htyped : d.graph.Typed k.identity k.type k.scoring :=
      (Graph.shareMrns_holds fun _ _ => Iff.rfl).mp ⟨k, hk, rfl, rfl, rfl⟩
    obtain ⟨role, hrole⟩ := hs.isQuery hb hr hb' htyped
    refine ⟨k, hk, ?_, by simp [horigin], Graph.shareMrns_reaches.mpr hup, Graph.shareMrns_reaches.mpr hreach⟩
    rw [hrole]
    cases role with
    | check => exact .inl rfl
    | data => exact .inr rfl

def mutualBundle : Bundle where
  policies := .ofList [
    { mrn := "p", groups := [{ checks := [{ mrn := "x" }], policies := [{ mrn := "q" }] }] },
    { mrn := "q", groups := [{ checks := [{ mrn := "y" }], policies := [{ mrn := "p" }] }] }]
  queries := .ofList [{ mrn := "x", code := some { id := "cx" } }, { mrn := "y", code := some { id := "cy" } }]

def policyRequest (m : Mrn) : Request where
  target := .policy m
  asset := Keyed.empty
  now := 1700000000

def assetRequest (policies : List Mrn) : Request where
  target := .asset "a" policies []
  asset := Keyed.empty
  now := 1700000000

namespace Bundle

variable {b : Bundle} {r : Request}

theorem checkScope_assetRequest {policies : List Mrn} (h : (b.scope policies).covers Keyed.empty = true) :
    b.checkScope (assetRequest policies) = .ok (b.scope policies) :=
  if_pos h

theorem resolve_of_policy {m : Mrn} {p : Policy} (ht : r.target = .policy m) (hp : b.policies.find? m = some p)
    (h : (b.scope [m]).covers r.asset = true) :
    b.resolve r = .ok (b.finish r (b.scope [m]) (.mrn m) ((b.setting r).draftPolicy p)) := by
  refine resolve_eq_ok.mpr ⟨_, _, _, ?_, ?_, rfl⟩
  · have hd : b.isDeclared m = true := by simp [isDeclared, Keyed.has, hp]
    simp [checkScope, checkScope.covered, ht, Target.assigned, hd, h]
  · simp [draft, ht, hp]

theorem resolve_policyRequest {m : Mrn} {p : Policy} (hp : b.policies.find? m = some p)
    (h : (b.scope [m]).covers Keyed.empty = true) : b.resolve (policyRequest m) =
      .ok (b.finish (policyRequest m) (b.scope [m]) (.mrn m) ((b.setting (policyRequest m)).draftPolicy p)) :=
  resolve_of_policy rfl hp h

end Bundle

theorem mutualBundle_wellRooted : mutualBundle.Distinct ∧
    ∃ res, mutualBundle.resolve (assetRequest ["p", "q"]) = .ok res ∧ res.graph.WellRooted res.root := by
  have hb : mutualBundle.Distinct := by decide +kernel
  have hs : (mutualBundle.scope ["p", "q"]).covers Keyed.empty = true := by decide +kernel
  obtain ⟨res, h⟩ := Bundle.exists_resolution (Bundle.checkScope_assetRequest hs)
  exact ⟨hb, res, h, Bundle.resolve_wellRooted hb h⟩

end Compliance
