import Compliance.Proofs.Controls

namespace Compliance

namespace Setting

inductive Sanctioned (s : Setting) (root : Identity) (roots : List Mrn) : Edit → Prop
  | note (x : Event) : Sanctioned s root roots (.note x)
  | settle (t : JobType) (m : Mrn) (made : Bool) : Sanctioned s root roots (.settle t m made)
  | weigh (m : Mrn) (x : Float32) : Sanctioned s root roots (.weigh m x)
  | query {role : Role} {q : Query} {e : Edit} :
    s.Referenced roots role q → s.Draws role ([], q) e → Sanctioned s root roots e
  | structural {k : Kind} {m : Mrn} {t : JobType} (sc : ScoringSystem) (ls : List Link) :
    (k, m) ∈ s.bundle.names → k ≠ .query → t.isQuery = false → Sanctioned s root roots (.structural m t sc ls)
  | hang (c : Identity) (w : Impact) : Sanctioned s root roots (.connect root c w)

structure Survey (s : Setting) (root : Identity) (roots : List Mrn) (start d : Draft) (log : List Edit) : Prop where
  blank : Blank root start
  graph : d.graph = start.graph.drawAll log
  grown : Grown root d.graph
  fitting : start.graph.Fitting root log
  sound : ∀ e ∈ log, s.Sanctioned root roots e
  complete : ∀ role q e, s.Referenced roots role q → s.Draws role ([], q) e → e ∈ log

variable {s : Setting} {root : Identity} {roots path : List Mrn} {done risks : List (Mrn × Bool)} {log : List Edit}
  {p : Policy} {d d₀ : Draft} {e : Edit}

namespace Survey

variable (h : Survey s root roots d₀ d log) {i : Identity}
include h

theorem unique : d.graph.Unique := h.grown.linked.unique

theorem typed {t : JobType} {sc : ScoringSystem} (ht : d.graph.Typed i t sc) : i = root ∨
    (∃ role q e, s.Referenced roots role q ∧ s.Draws role ([], q) e ∧ e.Makes i t sc) ∨
      ∃ k m, i = .mrn m ∧ (k, m) ∈ s.bundle.names ∧ k ≠ .query ∧ t.isQuery = false := by
  rw [h.graph] at ht
  rcases Graph.typed_of_drawAll h.blank.linked.unique ht with ht | ⟨e, he, hm⟩
  · exact .inl ((h.blank.has i).mp ht.has)
  · refine .inr ?_
    cases h.sound e he with
    | query hq hd => exact .inl ⟨_, _, e, hq, hd, hm⟩
    | structural sc' ls hn hk ht =>
      obtain ⟨-, rfl, rfl, -⟩ := hm
      exact .inr ⟨_, _, rfl, hn, hk, ht⟩
    | _ => exact hm.elim

theorem backed {m : Mrn} {id : CodeId} (hb : d.graph.Backed i m id) : ∃ role e q c k, s.Referenced roots role e ∧
    s.Draws role ([], e) (.leaf role q c k) ∧ i = Draft.leafIdentity role q c ∧ m = q.mrn ∧ id = c.id := by
  rw [h.graph] at hb
  rcases Graph.backed_of_drawAll h.blank.linked.unique hb with hb | ⟨e, he, hm⟩
  · exact absurd hb (h.blank.bare i m id)
  · cases e with
    | leaf role q c k =>
      obtain ⟨rfl, rfl, rfl⟩ := hm
      cases h.sound _ he with
      | @query role' e _ hq hd =>
        obtain rfl : role' = role := by cases hd; rfl
        exact ⟨role', e, q, c, k, hq, hd, rfl, rfl, rfl⟩
    | _ => exact hm.elim

end Survey

theorem Told.sanctioned (h : s.Told root roots d₀ path log d) (he : e ∈ log) : s.Sanctioned root roots e := by
  rcases h.sound e he with he | ⟨m, -, -, rfl⟩
  · cases he with
    | note x => exact .note x
    | query hq he => exact .query hq he
    | raising hp hf hk ha hr he =>
      simp only [Setting.raising, List.mem_cons, List.not_mem_nil, or_false] at he
      rcases he with rfl | rfl
      · rw [← Keyed.key_of_find? hk] at hk
        exact .structural _ _ (Bundle.mem_names_riskFactor.mpr ⟨_, hk⟩) (by simp) rfl
      · exact .weigh _ _
    | policy hp ht => exact .structural _ _ (Bundle.mem_names_policy.mpr ⟨_, hp.declared⟩) (by simp) rfl
    | settlePolicy made hp => exact .settle _ _ made
    | settleRiskFactor made hp hf hk => exact .settle _ _ made
  · exact .hang _ _

theorem sanctioned_of_evidential (h : s.bundle.Evidential root e) : s.Sanctioned root roots e := by
  cases h with
  | note x => exact .note x
  | settle t m made => exact .settle _ m made
  | @structural t m sc ls hm => exact .structural _ _ hm (by cases t <;> simp [Tier.kind]) (by cases t <;> rfl)
  | hang m => exact .hang _ _

theorem policy_survey (h : s.Proper) (hp : s.bundle.policies.find? p.mrn = some p) :
    ∃ log, Survey s (.mrn p.mrn) [p.mrn] (.start (.mrn p.mrn) p.scoring p.mrn) (s.draftPolicy p) log := by
  obtain ⟨log, d, ht, heq, hg, hf, hfollowed⟩ := exists_draftPolicy h hp
  refine ⟨log ++ hanging (.mrn p.mrn) (s.linksAt d.policies p), start_blank .., ?_, hg, hf, ?_, ?_⟩
  · rw [heq, Draft.replay_graph, Graph.drawAll_append, ht.graph]
  · intro e he
    rcases List.mem_append.mp he with he | he
    · exact ht.sanctioned he
    · obtain ⟨l, -, rfl⟩ := List.mem_map.mp he
      exact .hang _ _
  · intro role q e hq he
    refine List.mem_append_left _ (mem_log_of_referenced (fun p' hw => ht.walked_followed ?_ hw) hq he)
    intro m hm _ p' hp'
    obtain rfl : m = p.mrn := by simpa using hm
    obtain rfl := Option.some.inj (hp.symm.trans hp')
    exact hfollowed

theorem identity_ne_root (hr : s.bundle.Apart root) {role : Role} {q : Query} (hq : q ∈ s.bundle.queries.entries) :
    role.identity q ≠ root := by
  cases hi : role.identity q with
  | code id => exact hr.ne_code id
  | mrn m =>
    obtain rfl := Role.mrn_of_identity hi
    exact hr.ne_mrn (Bundle.query_named hq) (by simp)

theorem Told.tier_entries (h : s.Told root roots d₀ path log d) (he : e ∈ log) (t : Tier) :
    e.entries t.jobType = [] := by
  rcases h.sound e he with he | ⟨m, -, -, rfl⟩
  · cases he with
    | query hq he => exact he.entries _
    | raising hp hf hk ha hr he => exact raising_entries he _
    | _ => cases t <;> rfl
  · cases t <;> rfl

theorem makes_of_entered {role : Role} {m : Mrn} {i : Identity} (h : e.entered role m = some i) :
    ∃ t sc, e.Makes i t sc := by
  cases e with
  | leaf role' q c k =>
    obtain ⟨-, hi⟩ := Option.ite_none_right_eq_some.mp h
    obtain rfl := Option.some.inj hi
    exact ⟨_, _, rfl, rfl, rfl⟩
  | composite role' q vs =>
    obtain ⟨⟨hv, -⟩, hi⟩ := Option.ite_none_right_eq_some.mp h
    obtain rfl := Option.some.inj hi
    exact ⟨_, _, hv, rfl, rfl, rfl⟩
  | _ => cases h

theorem Told.evident (h : s.bundle.Distinct) {asset : Mrn} {sc : ScoringSystem}
    (ht : s.Told assetRoot roots (.start assetRoot sc asset) path log d) :
    Evident s.bundle assetRoot (fun _ => []) d where
  unique := ht.unique (start_blank ..)
  indexed := by
    intro role m i hi
    have hnone : ((Draft.start assetRoot sc asset).index role).lookup m = none := by cases role <;> rfl
    rw [ht.eq, Draft.replay_lookup, hnone, Option.none_or] at hi
    obtain ⟨e, he, hent⟩ := List.exists_of_findSome?_eq_some hi
    obtain ⟨t, sc', hm⟩ := makes_of_entered hent
    refine ⟨(ht.has_iff (start_blank ..)).mpr (.inr ⟨e, he, t, sc', hm⟩), ?_⟩
    rcases ht.makes he hm with ⟨role, q, hq, rfl, -⟩ | ⟨n, rfl, hn, -⟩ | ⟨n, rfl, hn, -⟩
    · exact identity_ne_root h.apart_root hq
    · exact h.ne_assetRoot hn
    · exact h.ne_assetRoot hn
  jobs := by
    intro t m hm
    have hl : d.ledger t.jobType = [] := by
      rw [ht.eq, Draft.replay_ledger_of_forall fun e he => ht.tier_entries he t]
      cases t <;> rfl
    simp [hl] at hm
  new := by
    intro t m hm hg
    rcases (ht.has_iff (start_blank ..)).mp hg with hroot | ⟨e, he, ty, sc', hmakes⟩
    · exact absurd hroot (h.ne_assetRoot hm)
    · rcases ht.makes he hmakes with ⟨role, q, hq, hi, -⟩ | ⟨n, hi, hn, -⟩ | ⟨n, hi, hn, -⟩
      · obtain rfl := Role.mrn_of_identity hi.symm
        have := h.kind_eq hm (Bundle.query_named hq)
        cases t <;> cases this
      · obtain rfl := Identity.mrn.inj hi
        have := h.kind_eq hm hn
        cases t <;> cases this
      · obtain rfl := Identity.mrn.inj hi
        have := h.kind_eq hm hn
        cases t <;> cases this
  apart t m hm := absurd hm List.not_mem_nil

def frameworkEvents (s : Setting) (assigned : List Mrn) (d : Draft) : List Event :=
  let found := s.discovered assigned
  ((found.filter (·.2.isNone)).map fun f => Event.undeclaredFramework f.1) ++
    ((s.candidateMaps (found.filterMap (·.2)) d).filter (!·.2)).map fun m => Event.inactiveMap m.1.mrn

def scopeOf (s : Setting) (assigned : List Mrn) (d : Draft) : ControlScope :=
  let active := (s.discovered assigned).filterMap (·.2)
  s.controlScope active (s.candidateMaps active d)

theorem addFrameworks_eq (assigned : List Mrn) : s.addFrameworks root assigned d =
    assigned.foldl (s.adopt root (s.scopeOf assigned d)) { d with events := d.events ++ s.frameworkEvents assigned d } := by
  simp [addFrameworks, scopeOf, frameworkEvents]

theorem scopeOf_evidence (assigned : List Mrn) : ∀ e ∈ (s.scopeOf assigned d).evidence, e ∈ s.bundle.evidence := by
  intro e he
  simp only [scopeOf, controlScope, candidateMaps, Bundle.evidence, List.mem_flatMap, List.mem_filter, List.mem_map] at he ⊢
  obtain ⟨_, ⟨⟨m, ⟨hm, -⟩, rfl⟩, -⟩, he⟩ := he
  exact ⟨m, hm, he⟩

theorem Assigned.followed {ms : List Mrn} (ha : Assigned s roots d₀ ms log d)
    (hm : ∀ m ∈ roots, ∀ p, s.bundle.policies.find? m = some p → m ∈ ms) (hp : s.Walked roots p) :
    ∀ r ∈ p.references s.asset s.now, s.Followed [] d.policies log p r := by
  refine ha.told.walked_followed ?_ hp
  intro m hmem hn p hp
  rw [List.append_nil] at hmem
  exact absurd (ha.met m (hm m hmem p hp) p hp) hn

theorem mem_declared {policies : List Mrn} : ∀ m ∈ policies, ∀ p, s.bundle.policies.find? m = some p →
    m ∈ policies.filter s.bundle.isDeclared := by
  intro m hm p hp
  exact List.mem_filter.mpr ⟨hm, by simp [Bundle.isDeclared, Keyed.has, hp]⟩

theorem mem_declared_iff {policies : List Mrn} {m : Mrn} {p : Policy} (hp : s.bundle.policies.find? m = some p) :
    m ∈ policies.filter s.bundle.isDeclared ↔ m ∈ policies :=
  ⟨fun hm => (List.mem_filter.mp hm).1, fun hm => mem_declared m hm p hp⟩

theorem asset_survey (h : s.Proper) (asset : Mrn) (policies frameworks : List Mrn) :
    ∃ log, Survey s assetRoot policies (.start assetRoot .unspecified asset)
      (s.draftAsset asset (policies.filter s.bundle.isDeclared) frameworks) log := by
  have hsub : ∀ m ∈ policies.filter s.bundle.isDeclared, m ∈ policies := fun m hm => (List.mem_filter.mp hm).1
  obtain ⟨log, ha⟩ := exists_assigned h asset hsub
  unfold draftAsset
  rw [addFrameworks_eq]
  generalize (policies.filter s.bundle.isDeclared).foldl (s.assign asset) (.start assetRoot .unspecified asset) = d at ha ⊢
  obtain ⟨log', heq, hev, hkeep⟩ := exists_adopted (c := s.scopeOf frameworks d) h h.distinct.apart_root
    (scopeOf_evidence frameworks) frameworks { d with events := d.events ++ s.frameworkEvents frameworks d }
  obtain ⟨-, hg, hf⟩ := hkeep ((ha.told.evident h.distinct).events _) ha.grown
  rw [heq _ (.refl _)]
  refine ⟨log ++ log', start_blank .., ?_, hg, ?_, ?_, ?_⟩
  · rw [Draft.replay_graph, Graph.drawAll_append, ← ha.told.graph]
  · apply Graph.fitting_append.mpr
    rw [← ha.told.graph]
    exact ⟨ha.fitting, hf⟩
  · intro e he
    rcases List.mem_append.mp he with he | he
    · exact ha.told.sanctioned he
    · exact sanctioned_of_evidential (hev e he)
  · intro role q e hq he
    exact List.mem_append_left _ (mem_log_of_referenced (fun p hw => ha.followed mem_declared hw) hq he)

end Setting

theorem Bundle.exists_survey {b : Bundle} (hb : b.Distinct) {r : Request} {root : Identity} {d : Draft}
    (h : b.draft r = .ok (root, d)) :
    b.Apart root ∧ ∃ start log, Setting.Survey (b.setting r) root r.target.assigned start d log := by
  have hp := hb.proper r
  unfold draft at h
  cases ht : r.target with
  | policy m =>
    rw [ht] at h
    cases hm : b.policies.find? m with
    | none => simp [hm] at h
    | some p =>
      simp only [hm, Except.ok.injEq, Prod.mk.injEq] at h
      obtain ⟨rfl, rfl⟩ := h
      obtain rfl := Keyed.key_of_find? hm
      exact ⟨hb.apart_policy hm, _, Setting.policy_survey hp hm⟩
  | asset asset policies frameworks =>
    simp only [ht, Except.ok.injEq, Prod.mk.injEq] at h
    obtain ⟨rfl, rfl⟩ := h
    exact ⟨hb.apart_root, _, Setting.asset_survey hp asset policies frameworks⟩

end Compliance
