import Compliance.Proofs.Rooted

/-!
Where a reporting graph can have a cycle. Policies, risk factors, frameworks and controls get their
job after the jobs below them, so they are on none. A composite query is opened anew on every visit,
and two visits that open it below different composites can between them close a cycle.
-/

namespace Compliance

namespace Setting

/-- On some visit a composite takes up a variant: the way down to the composite meets none twice, and
some way on from the variant meets none of these and ends in code. -/
def Opens (s : Setting) (roots : List Mrn) (q v : Query) : Prop :=
  ∃ role e path, s.Referenced roots role e ∧ s.Trail ([], e) (path, q) ∧ q.mrn ∉ path ∧ s.Variant q v ∧
    s.Yields (q.mrn :: path) v

def QueryIdentity (s : Setting) (i : Identity) : Prop :=
  ∃ role : Role, ∃ q ∈ s.bundle.queries.entries, i = role.identity q

variable {s : Setting} {root : Identity} {roots : List Mrn} {start d : Draft} {log : List Edit} {g : Graph}
  {i c : Identity}

def Ranked (s : Setting) (root : Identity) (g : Graph) : Prop :=
  ∃ rank : Identity → Nat, ∀ i c, g.Edge i c → i ≠ root →
    s.QueryIdentity i ∧ s.QueryIdentity c ∨ ¬s.QueryIdentity i ∧ rank c < rank i

theorem exists_rank_above (rank : Identity → Nat) (links : List Link) : ∃ n, ∀ l ∈ links, rank l.1 < n := by
  induction links with
  | nil => exact ⟨0, by simp⟩
  | cons l rest ih =>
    obtain ⟨n, hn⟩ := ih
    refine ⟨n + rank l.1 + 1, fun x hx => ?_⟩
    rcases List.mem_cons.mp hx with rfl | hx
    · omega
    · have := hn x hx
      omega

theorem not_queryIdentity (hd : s.bundle.Distinct) {k : Kind} {m : Mrn} (hm : (k, m) ∈ s.bundle.names)
    (hk : k ≠ .query) : ¬s.QueryIdentity (.mrn m) := by
  rintro ⟨role, q, hq, hi⟩
  obtain rfl := Role.mrn_of_identity hi.symm
  exact hk (hd.kind_eq hm (Bundle.query_named hq))

theorem exists_variant_of_lookup {role : Role} {path : List Mrn} {q : Query} {w : Impact}
    (h : ((s.variantLinks role path q).map Prod.snd).lookup c = some w) :
    ∃ v, s.Variant q v ∧ s.Yields (q.mrn :: path) v ∧ c = role.identity v := by
  have hmem : c ∈ ((s.variantLinks role path q).map Prod.snd).map Prod.fst := by
    obtain ⟨l₁, l₂, he, -⟩ := List.lookup_eq_some_iff.mp h
    simp [he]
  simp only [List.map_map, List.mem_map] at hmem
  obtain ⟨y, hy, rfl⟩ := hmem
  obtain ⟨m, hm, ha, v, hv, hr, hyield, rfl⟩ := mem_variantLinks.mp hy
  exact ⟨v, ⟨m, hm, ha, hv, hr⟩, hyield, rfl⟩

theorem Draws.ties {role : Role} {x : List Mrn × Query} {e : Edit} {w : Impact} (h : s.Draws role x e)
    (hx : x.2 ∈ s.bundle.queries.entries) (ht : e.Ties i c w) :
    ∃ path q, s.Trail x (path, q) ∧ q.mrn ∉ path ∧ q ∈ s.bundle.queries.entries ∧ i = .mrn q.mrn ∧
      ((s.variantLinks role path q).map Prod.snd).lookup c = some w := by
  cases h with
  | leaf _ _ _ => exact ht.elim
  | @composite path q hy hp hl => exact ⟨path, q, hy, hp, Trail.mem hy hx, ht.1, ht.2⟩

theorem Ranked.draw {e : Edit} (hd : s.bundle.Distinct) (hl : g.Linked root) (hf : e.Fits root g)
    (hs : s.Sanctioned root roots e) (h : s.Ranked root g) : s.Ranked root (e.draw g) := by
  obtain ⟨rank, hrank⟩ := h
  have hu := hl.unique
  cases hs with
  | note x => exact ⟨rank, hrank⟩
  | settle t m made => exact ⟨rank, hrank⟩
  | weigh m x => exact ⟨rank, hrank⟩
  | hang c w =>
    refine ⟨rank, fun i k hi hr => ?_⟩
    rcases (Graph.draw_edge hu hf.grounded).mp hi with hi | ⟨w, rfl, -, -⟩
    · exact hrank i k hi hr
    · exact absurd rfl hr
  | query hq hdraw =>
    refine ⟨rank, fun i k hi hr => ?_⟩
    rcases (Graph.draw_edge hu hf.grounded).mp hi with hi | ⟨w, ht⟩
    · exact hrank i k hi hr
    · obtain ⟨path, q, -, -, hmem, rfl, hlook⟩ := hdraw.ties hq.mem ht
      obtain ⟨v, hv, -, rfl⟩ := exists_variant_of_lookup hlook
      refine .inl ⟨⟨.data, q, hmem, ?_⟩, _, v, hv.mem, rfl⟩
      exact (Role.identity_of_composite hv.isComposite).symm
  | @structural k m t sc ls hname hk htype =>
    obtain ⟨-, -, hnew, hne, hls⟩ := hf
    -- a new job is ranked above its links, which have ranks; nothing else is ranked anew
    obtain ⟨n, hn⟩ := exists_rank_above rank ls
    refine ⟨fun i => if i = .mrn m then n else rank i, fun i c hi hr => ?_⟩
    rcases (Graph.draw_edge hu (by trivial)).mp hi with hi | ⟨w, rfl, hlook⟩
    · have hi' : i ≠ .mrn m := by
        rintro rfl
        exact hnew (Graph.Holds.has hi)
      have hc' : c ≠ .mrn m := by
        rintro rfl
        exact hnew (Graph.Holds.has (hl.forth i _ hi))
      simpa [hi', hc'] using hrank i c hi hr
    · have hmem : c ∈ ls.map Prod.fst := by
        obtain ⟨l₁, l₂, he, -⟩ := List.lookup_eq_some_iff.mp hlook
        simp [he]
      obtain ⟨l, hl', rfl⟩ := List.mem_map.mp hmem
      have hc' : l.1 ≠ .mrn m := by
        intro he
        exact hnew (he ▸ (hls l hl').1)
      refine .inr ⟨not_queryIdentity hd hname hk, ?_⟩
      simpa [hc'] using hn l hl'

theorem Ranked.drawAll (hd : s.bundle.Distinct) (hl : g.Linked root) (hf : g.Fitting root log)
    (hs : ∀ e ∈ log, s.Sanctioned root roots e) (h : s.Ranked root g) : s.Ranked root (g.drawAll log) := by
  induction log generalizing g with
  | nil => exact h
  | cons e rest ih =>
    exact ih (hl.draw hf.1) hf.2 (fun x hx => hs x (List.mem_cons_of_mem _ hx)) (h.draw hd hl hf.1 (hs e List.mem_cons_self))

namespace Survey

theorem ranked (h : Survey s root roots start d log) (hd : s.bundle.Distinct) : s.Ranked root d.graph := by
  rw [h.graph]
  refine Ranked.drawAll hd h.blank.linked h.fitting h.sound ⟨fun _ => 0, fun i c hi => ?_⟩
  exact absurd hi (h.blank.edgeless i c)

theorem grounded (h : Survey s root roots start d log) : ∀ e ∈ log, e.Grounded start.graph := by
  intro e he
  cases h.sound e he with
  | query hq hdraw => cases hdraw <;> trivial
  | hang c w => exact (h.blank.has root).mpr rfl
  | _ => trivial

theorem edge_iff (h : Survey s root roots start d log) : d.graph.Edge i c ↔ ∃ e ∈ log, ∃ w, e.Ties i c w := by
  rw [h.graph, Graph.drawAll_edge h.blank.linked.unique h.grounded]
  simp [h.blank.edgeless]

theorem lookup_of_ties (h : Survey s root roots start d log) (hd : s.bundle.Distinct) (hr : s.bundle.Apart root)
    {q : Query} {e : Edit} {w : Impact} (hq : q ∈ s.bundle.queries.entries) (he : e ∈ log) (ht : e.Ties (.mrn q.mrn) c w) :
    ∃ role x path, s.Referenced roots role x ∧ s.Trail ([], x) (path, q) ∧ q.mrn ∉ path ∧
      ((s.variantLinks role path q).map Prod.snd).lookup c = some w := by
  cases h.sound e he with
  | @query role x e hx hdraw =>
    obtain ⟨path, q', htrail, hp, hq', hi, hlook⟩ := hdraw.ties hx.mem ht
    obtain rfl := eq_of_mrn hq hq' (Identity.mrn.inj hi)
    exact ⟨role, x, path, hx, htrail, hp, hlook⟩
  | structural sc ls hname hk _ =>
    obtain ⟨hi, -⟩ := ht
    rw [← Identity.mrn.inj hi] at hname
    exact absurd (hd.kind_eq hname (Bundle.query_named hq)) hk
  | hang c w => exact absurd ht.1 (hr.ne_mrn (Bundle.query_named hq) (by simp))
  | _ => exact ht.elim

theorem query_edge_iff (h : Survey s root roots start d log) (hd : s.bundle.Distinct) (hr : s.bundle.Apart root)
    {q : Query} (hq : q ∈ s.bundle.queries.entries) : d.graph.Edge (.mrn q.mrn) c ↔
      ∃ role e path v, s.Referenced roots role e ∧ s.Trail ([], e) (path, q) ∧ q.mrn ∉ path ∧ s.Variant q v ∧
        s.Yields (q.mrn :: path) v ∧ c = role.identity v := by
  rw [h.edge_iff]
  constructor
  · rintro ⟨e, he, w, ht⟩
    obtain ⟨role, x, path, hx, htrail, hp, hlook⟩ := h.lookup_of_ties hd hr hq he ht
    obtain ⟨v, hv, hy, hc⟩ := exists_variant_of_lookup hlook
    exact ⟨role, x, path, v, hx, htrail, hp, hv, hy, hc⟩
  · rintro ⟨role, e, path, v, he, htrail, hp, hv, hy, rfl⟩
    have hl : s.variantLinks role path q ≠ [] := variantLinks_ne_nil.mpr ⟨v, hv, hy⟩
    obtain ⟨x, hx, hxi⟩ := exists_mem_variantLinks role hv hy
    have hsome : (((s.variantLinks role path q).map Prod.snd).lookup (role.identity v)).isSome := by
      rw [List.lookup_isSome_iff]
      exact ⟨x.2, List.mem_map_of_mem hx, by simp [hxi]⟩
    obtain ⟨w, hw⟩ := Option.isSome_iff_exists.mp hsome
    exact ⟨_, h.complete role e _ he (.composite htrail hp hl), w, rfl, hw⟩

theorem exists_lower (h : Survey s root roots start d log) (hd : s.bundle.Distinct) :
    ∃ rank : Identity → Nat, ∀ i c, Relation.TransGen d.graph.Edge i c → i ≠ root →
      s.QueryIdentity c ∨ ¬s.QueryIdentity i ∧ rank c < rank i := by
  obtain ⟨rank, hrank⟩ := h.ranked hd
  refine ⟨rank, fun i c hp hi => ?_⟩
  induction hp with
  | single he =>
    rcases hrank _ _ he hi with ⟨-, hc⟩ | hlt
    · exact .inl hc
    · exact .inr hlt
  | @tail k c _ he ih =>
    -- nothing leads to the root, so it is only ever first
    have hk : k ≠ root := by
      rintro rfl
      rename_i hp
      obtain ⟨x, -, hx⟩ := Relation.TransGen.tail'_iff.mp hp
      exact h.grown.linked.parents_root (h.grown.linked.forth _ _ hx)
    rcases hrank k c he hk with ⟨-, hc⟩ | ⟨hnk, hlt⟩
    · exact .inl hc
    · rcases ih with hq | ⟨hni, hlt'⟩
      · exact absurd hq hnk
      · exact .inr ⟨hni, Nat.lt_trans hlt hlt'⟩

theorem not_edge_code (h : Survey s root roots start d log) (hr : s.bundle.Apart root) {id : CodeId} :
    ¬d.graph.Edge (.code id) c := by
  intro he
  obtain ⟨e, hlog, w, ht⟩ := h.edge_iff.mp he
  cases e with
  | connect p k w =>
    cases h.sound _ hlog with
    | query _ hdraw => cases hdraw
    | hang c w => exact absurd ht.1 (hr.ne_code id)
  | composite role q vs => cases ht.1
  | structural m t sc ls => cases ht.1
  | _ => exact ht.elim

theorem opens_of_path (h : Survey s root roots start d log) (hd : s.bundle.Distinct) (hr : s.bundle.Apart root)
    {q : Query} (hq : q ∈ s.bundle.queries.entries) (hp : Relation.TransGen d.graph.Edge (.mrn q.mrn) c) :
    ∃ v, Relation.TransGen (s.Opens roots) q v ∧ v ∈ s.bundle.queries.entries ∧ ∃ role : Role, c = role.identity v := by
  have step : ∀ {q c}, q ∈ s.bundle.queries.entries → d.graph.Edge (.mrn q.mrn) c →
      ∃ v, s.Opens roots q v ∧ v ∈ s.bundle.queries.entries ∧ ∃ role : Role, c = role.identity v := by
    intro q c hq he
    obtain ⟨role, e, path, v, he, htrail, hp, hv, hy, hc⟩ := (h.query_edge_iff hd hr hq).mp he
    exact ⟨v, ⟨role, e, path, he, htrail, hp, hv, hy⟩, hv.mem, role, hc⟩
  induction hp with
  | single he =>
    obtain ⟨v, ho, hv⟩ := step hq he
    exact ⟨v, .single ho, hv⟩
  | tail _ he ih =>
    obtain ⟨v, ho, hv, role, rfl⟩ := ih
    cases hi : role.identity v with
    | code id =>
      rw [hi] at he
      exact absurd he (h.not_edge_code hr)
    | mrn m =>
      obtain rfl := Role.mrn_of_identity hi
      rw [hi] at he
      obtain ⟨v', ho', hv'⟩ := step hv he
      exact ⟨v', ho.tail ho', hv'⟩

theorem path_of_opens (h : Survey s root roots start d log) (hd : s.bundle.Distinct) (hr : s.bundle.Apart root)
    {q v : Query} (ho : Relation.TransGen (s.Opens roots) q v) (hv : v.isComposite = true) :
    Relation.TransGen d.graph.Edge (.mrn q.mrn) (.mrn v.mrn) := by
  have step : ∀ {q v}, s.Opens roots q v → v.isComposite = true → d.graph.Edge (.mrn q.mrn) (.mrn v.mrn) := by
    rintro q v ⟨role, e, path, he, htrail, hp, hv, hy⟩ hc
    exact (h.query_edge_iff hd hr (Trail.mem htrail he.mem)).mpr
      ⟨role, e, path, v, he, htrail, hp, hv, hy, (Role.identity_of_composite hc).symm⟩
  induction ho with
  | single ho => exact .single (step ho hv)
  | @tail k v _ ho ih =>
    obtain ⟨role, e, path, he, htrail, hp, hvar, hy⟩ := ho
    exact (ih hvar.isComposite).tail (step ⟨role, e, path, he, htrail, hp, hvar, hy⟩ hv)

theorem acyclic_iff (h : Survey s root roots start d log) (hd : s.bundle.Distinct) (hr : s.bundle.Apart root) :
    (∀ i, ¬Relation.TransGen d.graph.Edge i i) ↔ ∀ q, ¬Relation.TransGen (s.Opens roots) q q := by
  constructor
  · intro hacyclic q ho
    have hq : q.isComposite = true := by
      obtain ⟨v, ⟨role, e, path, he, htrail, hp, hvar, hy⟩, -⟩ := Relation.TransGen.head'_iff.mp ho
      exact hvar.isComposite
    exact hacyclic _ (h.path_of_opens hd hr ho hq)
  · intro hopens i hp
    obtain ⟨rank, hrank⟩ := h.exists_lower hd
    have hi : i ≠ root := by
      rintro rfl
      obtain ⟨x, -, hx⟩ := Relation.TransGen.tail'_iff.mp hp
      exact h.grown.linked.parents_root (h.grown.linked.forth _ _ hx)
    rcases hrank i i hp hi with ⟨role, q, hq, rfl⟩ | ⟨-, hlt⟩
    · cases hid : role.identity q with
      | code id =>
        rw [hid] at hp
        obtain ⟨x, hx, -⟩ := Relation.TransGen.head'_iff.mp hp
        exact h.not_edge_code hr hx
      | mrn m =>
        obtain rfl := Role.mrn_of_identity hid
        rw [hid] at hp
        obtain ⟨v, ho, hv, role', hi⟩ := h.opens_of_path hd hr hq hp
        obtain rfl := eq_of_mrn hv hq (Role.mrn_of_identity hi.symm)
        exact hopens v ho
    · exact absurd hlt (Nat.lt_irrefl _)

end Survey

end Setting

/-- The graph of a resolved request has no cycle exactly if no composites take each other up in a circle. -/
theorem Bundle.resolve_acyclic_iff {b : Bundle} {r : Request} {res : Resolution} (hb : b.Distinct)
    (h : b.resolve r = .ok res) : (∀ i, ¬Relation.TransGen res.graph.Edge i i) ↔
      ∀ q, ¬Relation.TransGen ((b.setting r).Opens r.target.assigned) q q := by
  obtain ⟨hr, start, d, log, hs, hg⟩ := exists_survey_of_resolve hb h
  have he : res.graph.Edge = d.graph.Edge := by
    funext i c
    rw [hg]
    exact propext Graph.shareMrns_edge
  rw [he]
  exact hs.acyclic_iff hb hr

theorem mutualBundle_acyclic : mutualBundle.Distinct ∧
    ∃ res, mutualBundle.resolve (assetRequest ["q", "p"]) = .ok res ∧ ∀ i, ¬Relation.TransGen res.graph.Edge i i := by
  have hb : mutualBundle.Distinct := by decide +kernel
  have hs : (mutualBundle.scope ["q", "p"]).covers Keyed.empty = true := by decide +kernel
  have hplain : ∀ q ∈ mutualBundle.queries.entries, q.variants = [] := by decide +kernel
  obtain ⟨res, h⟩ := Bundle.exists_resolution (Bundle.checkScope_assetRequest hs)
  refine ⟨hb, res, h, (Bundle.resolve_acyclic_iff hb h).mpr fun q ho => ?_⟩
  obtain ⟨v, ⟨role, e, path, he, htrail, -, ⟨m, hm, -⟩, -⟩, -⟩ := Relation.TransGen.head'_iff.mp ho
  rw [hplain q (Setting.Trail.mem htrail he.mem)] at hm
  exact absurd hm List.not_mem_nil

def crossedBundle : Bundle where
  policies := .ofList [{ mrn := "p", groups := [{ checks := [{ mrn := "a" }, { mrn := "b" }] }] }]
  queries := .ofList [
    { mrn := "a", variants := ["b", "x"] }, { mrn := "b", variants := ["a", "y"] },
    { mrn := "x", code := some { id := "cx" } }, { mrn := "y", code := some { id := "cy" } }]

theorem crossedBundle_cyclic : crossedBundle.Distinct ∧
    ∃ res, crossedBundle.resolve (policyRequest "p") = .ok res ∧ Relation.TransGen res.graph.Edge (.mrn "a") (.mrn "a") := by
  have hb : crossedBundle.Distinct := by decide +kernel
  have hp : crossedBundle.policies.find? "p" =
      some { mrn := "p", groups := [{ checks := [{ mrn := "a" }, { mrn := "b" }] }] } := by decide +kernel
  have hs : (crossedBundle.scope ["p"]).covers Keyed.empty = true := by decide +kernel
  refine ⟨hb, _, Bundle.resolve_policyRequest hp hs, .tail (.single (b := .mrn "b") ?_) ?_⟩
  · simp only [Graph.Edge, Graph.Holds, Bundle.finish]
    decide +kernel
  · simp only [Graph.Edge, Graph.Holds, Bundle.finish]
    decide +kernel

end Compliance
