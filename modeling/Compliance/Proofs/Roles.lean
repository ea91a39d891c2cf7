import Compliance.Proofs.Citations

namespace Compliance

/-- A query's job is of the given role, and so are the jobs of queries below it. -/
def Graph.KeepsRole (g : Graph) (role : Role) (q : Query) : Prop :=
  (g.Holds (role.identity q) fun j => j.type = role.jobType) ∧ ∀ i t, g.Reaches (role.identity q) i →
    (g.Holds i fun j => j.type = t) → t.isQuery = true → t = role.jobType

theorem Graph.shareMrns_keepsRole {g : Graph} {role : Role} {q : Query} :
    g.shareMrns.KeepsRole role q ↔ g.KeepsRole role q := by
  simp only [KeepsRole, shareMrns_holds_type, shareMrns_reaches]

theorem Graph.keepsRole_of_closed {g : Graph} {role : Role} {q : Query} {l : List Identity} (hhas : g.Has (role.identity q))
    (hq : role.identity q ∈ l) (hl : ∀ j ∈ g.jobs, j.identity ∈ l →
      (∀ c ∈ j.children.map Prod.fst, c ∈ l) ∧ j.type = role.jobType) : g.KeepsRole role q := by
  obtain ⟨j, hj, hi, -⟩ := hhas
  refine ⟨⟨j, hj, hi, (hl j hj (hi ▸ hq)).2⟩, ?_⟩
  rintro i t hreach ⟨k, hk, rfl, rfl⟩ -
  have hmem : ∀ i, g.Reaches (role.identity q) i → i ∈ l := by
    intro i hreach
    induction hreach with
    | refl => exact hq
    | tail _ he ih =>
      obtain ⟨p, hp, rfl, hc⟩ := he
      exact (hl p hp ih).1 _ hc
  exact (hl k hk (hmem _ hreach)).2

namespace Setting

def TwoRoled (s : Setting) (roots : List Mrn) (q : Query) : Prop :=
  q.isComposite = true ∧ ∀ role, s.Materialized roots role q

/-- In which roles the jobs of queries are: that of a query is in its role unless the query is a composite with both,
and keeps the role if no such composite is below it; that of a composite with both is in one of them. -/
structure KeepsRoles (s : Setting) (roots : List Mrn) (g : Graph) : Prop where
  own : ∀ role q, s.Materialized roots role q → ¬s.TwoRoled roots q →
    g.Holds (role.identity q) fun j => j.type = role.jobType
  below : ∀ role q, s.Materialized roots role q →
    (g.KeepsRole role q ↔ ∀ k, Relation.ReflTransGen (s.Opens roots) q k → ¬s.TwoRoled roots k)
  either : ∀ q, s.TwoRoled roots q → ∃ role : Role, g.Holds (.mrn q.mrn) fun j => j.type = role.jobType

variable {s : Setting} {root : Identity} {roots path : List Mrn} {start d : Draft} {log : List Edit} {role role' : Role}
  {q k e : Query} {i : Identity}

theorem role_eq_of_not_twoRoled (hn : ¬s.TwoRoled roots q) (hq : q.isComposite = true) (h : s.Materialized roots role q)
    (h' : s.Materialized roots role' q) : role' = role := by
  cases role <;> cases role'
  · rfl
  · exact absurd ⟨hq, fun role => by cases role <;> assumption⟩ hn
  · exact absurd ⟨hq, fun role => by cases role <;> assumption⟩ hn
  · rfl

namespace Survey

variable (h : Survey s root roots start d log) (hd : s.bundle.Distinct) (hr : s.bundle.Apart root)
include h hd hr

theorem holds_of_not_twoRoled (hq : s.Materialized roots role q) (hn : ¬s.TwoRoled roots q) :
    d.graph.Holds (role.identity q) fun j => j.type = role.jobType := by
  obtain ⟨j, hj, hi, -⟩ := h.materialized_has hq
  refine ⟨j, hj, hi, ?_⟩
  rcases h.type_of_materialized hd hr hq ⟨j, hj, hi, rfl, rfl⟩ with ht | ⟨hc, role', hq', ht⟩
  · exact ht
  · rwa [role_eq_of_not_twoRoled hn hc hq hq'] at ht

theorem exists_leaf_below (he : s.Referenced roots role e) (ht : s.Trail ([], e) (path, q)) (hy : s.Yields path q) :
    ∃ i, d.graph.Reaches (role.identity q) i ∧ d.graph.Holds i fun j => j.type = role.jobType := by
  induction hy with
  | @code path q c hn hc =>
    have hplain : ¬s.TwoRoled roots q := fun hq => by cases hn.symm.trans hq.1
    exact ⟨_, .refl, h.holds_of_not_twoRoled hd hr ⟨e, path, he, ht, .code hn hc⟩ hplain⟩
  | @variant path q v hp hv hy ih =>
    obtain ⟨i, hreach, hi⟩ := ih (ht.tail ⟨hp, hv, rfl⟩)
    have hedge : d.graph.Edge (.mrn q.mrn) (role.identity v) :=
      (h.query_edge_iff hd hr (Trail.mem ht he.mem)).mpr ⟨role, e, path, v, he, ht, hp, hv, hy, rfl⟩
    exact ⟨i, .head (Role.identity_of_composite hv.isComposite ▸ hedge) hreach, hi⟩

theorem reaches_of_opens (ho : Relation.ReflTransGen (s.Opens roots) q k) (hk : k.isComposite = true) :
    d.graph.Reaches (role.identity q) (.mrn k.mrn) := by
  rcases Relation.reflTransGen_iff_eq_or_transGen.mp ho with rfl | ho
  · rw [Role.identity_of_composite hk]
    exact .refl
  · obtain ⟨v, ⟨_, _, _, _, _, _, hv, _⟩, -⟩ := Relation.TransGen.head'_iff.mp ho
    rw [Role.identity_of_composite hv.isComposite]
    exact (h.path_of_opens hd hr ho hk).to_reflTransGen

theorem exists_materialized_below (hq : s.Materialized roots role q)
    (hn : ∀ k, Relation.ReflTransGen (s.Opens roots) q k → ¬s.TwoRoled roots k)
    (hp : d.graph.Reaches (role.identity q) i) :
    ∃ v, s.Materialized roots role v ∧ role.identity v = i ∧ Relation.ReflTransGen (s.Opens roots) q v := by
  induction hp with
  | refl => exact ⟨q, hq, rfl, .refl⟩
  | tail _ he ih =>
    obtain ⟨k, hk, rfl, ho⟩ := ih
    cases hi : role.identity k with
    | code id =>
      rw [hi] at he
      exact absurd he (h.not_edge_code hr)
    | mrn m =>
      obtain rfl := Role.mrn_of_identity hi
      rw [hi] at he
      obtain ⟨role', e, path, v, hx, ht, hp, hv, hy, rfl⟩ := (h.query_edge_iff hd hr hk.mem).mp he
      obtain ⟨hk', hv'⟩ := materialized_of_variant hx ht hp hv hy
      obtain rfl := role_eq_of_not_twoRoled (hn k ho) hv.isComposite hk hk'
      exact ⟨v, hv', rfl, ho.tail ⟨role', e, path, hx, ht, hp, hv, hy⟩⟩

theorem keepsRole_iff (hq : s.Materialized roots role q) :
    d.graph.KeepsRole role q ↔ ∀ k, Relation.ReflTransGen (s.Opens roots) q k → ¬s.TwoRoled roots k := by
  constructor
  · rintro ⟨-, hkeep⟩ k ho ⟨hk, hboth⟩
    obtain ⟨role', hne⟩ : ∃ role' : Role, role' ≠ role := by
      cases role
      · exact ⟨.data, nofun⟩
      · exact ⟨.check, nofun⟩
    obtain ⟨e, path, he, ht, hy⟩ := hboth role'
    obtain ⟨i, hreach, hi⟩ := h.exists_leaf_below hd hr he ht hy
    rw [Role.identity_of_composite hk] at hreach
    exact hne (Role.jobType_inj (hkeep i _ ((h.reaches_of_opens hd hr ho hk).trans hreach) hi role'.isQuery_jobType))
  · intro hn
    refine ⟨h.holds_of_not_twoRoled hd hr hq (hn q .refl), fun i t hp ht _ => ?_⟩
    obtain ⟨v, hv, rfl, ho⟩ := h.exists_materialized_below hd hr hq hn hp
    obtain ⟨j, -, -, rfl, htype⟩ := h.unique.holds_and ht (h.holds_of_not_twoRoled hd hr hv (hn v ho))
    exact htype

theorem keepsRoles : s.KeepsRoles roots d.graph where
  own _ _ hq hn := h.holds_of_not_twoRoled hd hr hq hn
  below _ _ hq := h.keepsRole_iff hd hr hq
  either := by
    rintro q ⟨hc, hboth⟩
    obtain ⟨j, hj, hi, -⟩ := h.materialized_has (hboth .check)
    rw [Role.identity_of_composite hc] at hi
    rcases h.type_of_materialized hd hr (hboth .check) ⟨j, hj, hi.trans (Role.identity_of_composite hc).symm, rfl, rfl⟩ with
      ht | ⟨-, role, -, ht⟩
    · exact ⟨.check, j, hj, hi, ht⟩
    · exact ⟨role, j, hj, hi, ht⟩

end Survey

theorem KeepsRoles.shareMrns {g : Graph} (h : s.KeepsRoles roots g) : s.KeepsRoles roots g.shareMrns := by
  refine ⟨?_, ?_, ?_⟩ <;> simp only [Graph.shareMrns_holds_type, Graph.shareMrns_keepsRole]
  exacts [h.own, h.below, h.either]

end Setting

namespace Bundle

variable {b : Bundle} {r : Request} {res : Resolution}

theorem keepsRoles_of_resolve (hb : b.Distinct) (h : b.resolve r = .ok res) :
    (b.setting r).KeepsRoles r.target.assigned res.graph := by
  obtain ⟨hr, start, d, log, hs, hg⟩ := exists_survey_of_resolve hb h
  rw [hg]
  exact (hs.keepsRoles hb hr).shareMrns

/-- The roles of the jobs of a resolution, and of those to which controls link for what is cited. -/
theorem resolve_keepsRoles (hb : b.Distinct) (h : b.resolve r = .ok res) :
    (b.setting r).KeepsRoles r.target.assigned res.graph ∧
      ∀ asset policies frameworks, r.target = .asset asset policies frameworks → ∀ m,
        (res.graph.Holds (.mrn m) fun j => j.type = .control) → ∀ x ∈ b.citations frameworks res.graph m,
          x.2.action ≠ .deactivate → ∀ q, (b.setting r).Materialized policies x.1 q → q.mrn = x.2.mrn →
            ¬(b.setting r).TwoRoled policies q → res.graph.Edge (.mrn m) (x.1.identity q) ∧
              res.graph.Holds (x.1.identity q) fun j => j.type = x.1.jobType := by
  refine ⟨keepsRoles_of_resolve hb h, ?_⟩
  rintro asset policies frameworks htarget m hm ⟨role, ref⟩ hx ha q hq hmrn hn
  obtain ⟨_, filters, now⟩ := r
  obtain rfl := htarget
  refine ⟨?_, (keepsRoles_of_resolve hb h).own role q hq hn⟩
  obtain ⟨n, hname, hevidenced⟩ := evidenced_of_resolve hb h hm
  obtain rfl := Identity.mrn.inj hname
  obtain ⟨e, he, hem, href⟩ := mem_citations.mp hx
  obtain ⟨map, hmap, hforce, he⟩ := mem_attested.mp he
  exact ((hevidenced.edge _).mpr ⟨map, hmap, hforce, e, he, hem, role, ref, href, ha, q, hq, hmrn, rfl⟩).1

end Bundle

def partedBundle : Bundle where
  policies := .ofList [{ mrn := "p", groups := [{ checks := [{ mrn := "k" }, { mrn := "o" }], queries := [{ mrn := "k" }] }] }]
  frameworks := .ofList [{ mrn := "f", groups := [{ controls := ["c"] }] }]
  maps := [{ mrn := "m", framework := "f", policies := ["p"], controls := [
    { mrn := "c", checks := [{ mrn := "o" }], queries := [{ mrn := "k" }] }] }]
  queries := .ofList [{ mrn := "k", variants := ["x"] }, { mrn := "x", code := some { id := "cx" } },
    { mrn := "o", variants := ["y"] }, { mrn := "y", code := some { id := "cy" } }]

theorem partedBundle_materialized :
    (partedBundle.setting auditRequest).Materialized ["p"] .check { mrn := "o", variants := ["y"] } := by
  have hp : (partedBundle.setting auditRequest).Walked ["p"]
      { mrn := "p", groups := [{ checks := [{ mrn := "k" }, { mrn := "o" }], queries := [{ mrn := "k" }] }] } :=
    .root (m := "p") List.mem_cons_self rfl
  refine ⟨_, [], .policy (g := { checks := [{ mrn := "k" }, { mrn := "o" }], queries := [{ mrn := "k" }] })
    (r := { mrn := "o" }) hp ?_ ?_ ⟨?_, ?_, ?_⟩, .refl,
    .variant (v := { mrn := "y", code := some { id := "cy" } }) ?_ ⟨"y", ?_, ?_, ?_, ?_⟩ (.code rfl rfl)⟩
  all_goals decide +kernel

theorem partedBundle_keepsRoles : partedBundle.Distinct ∧
    ∃ res, partedBundle.resolve auditRequest = .ok res ∧
    ((partedBundle.setting auditRequest).KeepsRoles ["p"] res.graph ∧
      ∀ asset policies frameworks, auditRequest.target = .asset asset policies frameworks → ∀ m,
        (res.graph.Holds (.mrn m) fun j => j.type = .control) → ∀ x ∈ partedBundle.citations frameworks res.graph m,
          x.2.action ≠ .deactivate → ∀ q, (partedBundle.setting auditRequest).Materialized policies x.1 q →
            q.mrn = x.2.mrn → ¬(partedBundle.setting auditRequest).TwoRoled policies q →
              res.graph.Edge (.mrn m) (x.1.identity q) ∧
                res.graph.Holds (x.1.identity q) fun j => j.type = x.1.jobType) ∧
      ∃ q, (partedBundle.setting auditRequest).Materialized ["p"] .check q ∧ q.isComposite = true ∧
        ¬(partedBundle.setting auditRequest).TwoRoled ["p"] q ∧ res.graph.Edge (.mrn "c") (.mrn q.mrn) := by
  have hb : partedBundle.Distinct := by decide +kernel
  have hs : (partedBundle.scope ["p"]).covers Keyed.empty = true := by decide +kernel
  have h : partedBundle.resolve auditRequest = .ok _ := Bundle.resolve_asset hs
  generalize hres : Bundle.finish partedBundle _ _ _ _ = res at h
  have hroles := Bundle.resolve_keepsRoles hb h
  have hkeep : res.graph.KeepsRole .check { mrn := "o", variants := ["y"] } := by
    rw [← hres]
    exact Graph.keepsRole_of_closed (l := [.mrn "o", .code "cy"]) (by decide +kernel) (by decide +kernel) (by decide +kernel)
  have hn := (hroles.1.below .check _ partedBundle_materialized).mp hkeep _ .refl
  have hcontrol : res.graph.Holds (.mrn "c") fun j => j.type = .control := by
    rw [← hres]
    decide +kernel
  have hpolicy : res.graph.Holds (.mrn "p") fun j => j.type = .policy := by
    rw [← hres]
    decide +kernel
  have hadopts : partedBundle.Adopts ["f"] { mrn := "f", groups := [{ controls := ["c"] }] } :=
    .assigned (m := "f") List.mem_cons_self rfl
  have hcited : (.check, { mrn := "o" }) ∈ partedBundle.citations ["f"] res.graph "c" :=
    Bundle.mem_citations.mpr ⟨_, Bundle.mem_attested.mpr ⟨_, List.mem_cons_self,
      ⟨⟨_, hadopts, rfl⟩, "p", List.mem_cons_self, hpolicy⟩, List.mem_cons_self⟩, rfl, List.mem_cons_self⟩
  have hlinked := hroles.2 "s" ["p"] ["f"] rfl "c" hcontrol _ hcited (by decide) _ partedBundle_materialized rfl hn
  exact ⟨hb, res, h, hroles, _, partedBundle_materialized, rfl, hn, hlinked.1⟩

def twofoldBundle : Bundle where
  policies := .ofList [{ mrn := "p", groups := [{ checks := [{ mrn := "k" }], queries := [{ mrn := "k" }] }] }]
  frameworks := .ofList [{ mrn := "f", groups := [{ controls := ["c"] }] }]
  maps := [{ mrn := "m", framework := "f", policies := ["p"], controls := [{ mrn := "c", queries := [{ mrn := "k" }] }] }]
  queries := .ofList [{ mrn := "k", variants := ["x"] }, { mrn := "x", code := some { id := "cx" } }]

theorem twofoldBundle_materialized (role : Role) :
    (twofoldBundle.setting auditRequest).Materialized ["p"] role { mrn := "k", variants := ["x"] } := by
  have hp : (twofoldBundle.setting auditRequest).Walked ["p"]
      { mrn := "p", groups := [{ checks := [{ mrn := "k" }], queries := [{ mrn := "k" }] }] } :=
    .root (m := "p") List.mem_cons_self rfl
  refine ⟨_, [], .policy (g := { checks := [{ mrn := "k" }], queries := [{ mrn := "k" }] }) (r := { mrn := "k" }) hp ?_ ?_
    ⟨?_, ?_, ?_⟩, .refl, .variant (v := { mrn := "x", code := some { id := "cx" } }) ?_ ⟨"x", ?_, ?_, ?_, ?_⟩ (.code rfl rfl)⟩
  all_goals (cases role <;> decide +kernel)

theorem twofoldBundle_loses_role : twofoldBundle.Distinct ∧
    ∃ res, twofoldBundle.resolve auditRequest = .ok res ∧ ∃ q,
      (twofoldBundle.setting auditRequest).Materialized ["p"] .data q ∧ q.mrn = "k" ∧ ¬res.graph.KeepsRole .data q ∧
        res.graph.Edge (.mrn "c") (.mrn "k") ∧ res.graph.Holds (.mrn "k") fun j => j.type = .check := by
  have hb : twofoldBundle.Distinct := by decide +kernel
  have hs : (twofoldBundle.scope ["p"]).covers Keyed.empty = true := by decide +kernel
  have h : twofoldBundle.resolve auditRequest = .ok _ := Bundle.resolve_asset hs
  generalize hres : Bundle.finish twofoldBundle _ _ _ _ = res at h
  have hdata : ¬res.graph.Holds (.mrn "k") fun j => j.type = .dataQuery := by
    rw [← hres]
    decide +kernel
  refine ⟨hb, res, h, _, twofoldBundle_materialized .data, rfl, fun hk => hdata hk.1, ?_, ?_⟩
  all_goals
    rw [← hres]
    decide +kernel

end Compliance
