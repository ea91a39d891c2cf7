import Compliance.Proofs.Walk

/-!
The invariant of the walk. The log holds nothing that was not asked for, the ledger holds each policy
once, and whatever a settled policy refers to was followed, save for what is still on the path.
-/

namespace Compliance

theorem mem_of_lookup {κ α : Type} [BEq κ] [LawfulBEq κ] {l : List (κ × α)} {k : κ} {a : α} (h : l.lookup k = some a) :
    (k, a) ∈ l := by
  obtain ⟨l₁, l₂, rfl, -⟩ := List.lookup_eq_some_iff.mp h
  simp

theorem not_mem_of_lookup {α : Type} {l : List (Mrn × α)} {m : Mrn} (h : l.lookup m = none) : m ∉ l.map Prod.fst := by
  intro hm
  obtain ⟨x, hx, rfl⟩ := List.mem_map.mp hm
  simpa using List.lookup_eq_none_iff.mp h x hx

theorem Policy.mem_references_query {p : Policy} {asset : PredicateSet} {now : Timestamp} {role : Role} {r : QueryRef} :
    .query role r ∈ p.references asset now ↔ ∃ g ∈ p.contentGroups asset now, r ∈ g.asked role := by
  cases role <;> simp [Policy.references, PolicyGroup.references, PolicyGroup.asked]

theorem Policy.mem_references_policy {p : Policy} {asset : PredicateSet} {now : Timestamp} {r : PolicyRef} :
    .policy r ∈ p.references asset now ↔ ∃ g ∈ p.contentGroups asset now, r ∈ g.policies := by
  simp [Policy.references, PolicyGroup.references]

theorem Policy.mem_references_riskFactor {p : Policy} {asset : PredicateSet} {now : Timestamp} {m : Mrn} :
    .riskFactor m ∈ p.references asset now ↔ ∃ f ∈ p.riskReferences asset now, f.mrn = m := by
  simp only [Policy.references, PolicyGroup.references, Policy.riskReferences, List.mem_append, List.mem_flatMap,
    List.mem_map, reduceCtorEq, and_false, exists_false, Reference.riskFactor.injEq, false_or]
  grind

namespace Setting

section

variable (s : Setting) (root : Identity) (roots : List Mrn)

/-- What a walk from the roots may leave in the log, by what is settled. -/
inductive Lawful (done risks : List (Mrn × Bool)) : Edit → Prop
  | note (x : Event) : Lawful done risks (.note x)
  | query {role : Role} {q : Query} {e : Edit} :
    s.Referenced roots role q → s.Draws role ([], q) e → Lawful done risks e
  | raising {p : Policy} {f : RiskFactorRef} {k : RiskFactor} {e : Edit} :
    s.Walked roots p → f ∈ p.riskReferences s.asset s.now → s.bundle.riskFactors.find? f.mrn = some k →
      s.Raised k → (k.mrn, true) ∈ risks → e ∈ s.raising k → Lawful done risks e
  | policy {p : Policy} {tail : List (Mrn × Bool)} : s.Walked roots p → (p.mrn, true) :: tail <:+ done →
    Lawful done risks (.structural p.mrn .policy (s.policyScoring p) (s.linksAt tail p))
  | settlePolicy {p : Policy} (made : Bool) : s.Walked roots p → Lawful done risks (.settle .policy p.mrn made)
  | settleRiskFactor {p : Policy} {f : RiskFactorRef} {k : RiskFactor} (made : Bool) :
    s.Walked roots p → f ∈ p.riskReferences s.asset s.now → s.bundle.riskFactors.find? f.mrn = some k →
      Lawful done risks (.settle .riskFactor f.mrn made)

def Hung (done : List (Mrn × Bool)) (e : Edit) : Prop :=
  ∃ m ∈ roots, (m, true) ∈ done ∧ e = .connect root (.mrn m) {}

def Explored (log : List Edit) (k : RiskFactor) : Prop :=
  s.Active k → (∀ e, s.Probed k e → e ∈ log) ∧ (s.riskLinks k ≠ [] → ∀ e ∈ s.raising k, e ∈ log)

def Followed (path : List Mrn) (done : List (Mrn × Bool)) (log : List Edit) (p : Policy) : Reference → Prop
  | .query role r => ∀ e, s.Asked role (s.overrides.effective p.mrn r.mrn r.action) r e → e ∈ log
  | .riskFactor m => ∀ k, s.bundle.riskFactors.find? m = some k →
    (∃ made, .settle .riskFactor m made ∈ log) ∧ s.Explored log k
  | .policy r => s.overrides.effective p.mrn r.mrn r.action ≠ .deactivate →
    ∀ q, s.bundle.policies.find? r.mrn = some q → r.mrn ∈ done.map Prod.fst ∨ r.mrn ∈ path

structure Told (d₀ : Draft) (path : List Mrn) (log : List Edit) (d : Draft) : Prop where
  eq : d = d₀.replay log
  sound : ∀ e ∈ log, s.Lawful roots d.policies d.riskFactors e ∨ Hung root roots d.policies e
  once : (d.policies.map Prod.fst).Nodup
  apart : ∀ m ∈ path, m ∉ d.policies.map Prod.fst
  settled : ∀ m made tail, (m, made) :: tail <:+ d.policies → ∃ p, s.bundle.policies.find? m = some p ∧
    s.Walked roots p ∧ (made = true ↔ s.linksAt tail p ≠ []) ∧
      (made = true → .structural m .policy (s.policyScoring p) (s.linksAt tail p) ∈ log)
  followed : ∀ m ∈ d.policies.map Prod.fst, ∀ p, s.bundle.policies.find? m = some p →
    ∀ r ∈ p.references s.asset s.now, s.Followed path d.policies log p r
  risks : ∀ m made, (m, made) ∈ d.riskFactors → ∃ k, s.bundle.riskFactors.find? m = some k ∧
    (made = true ↔ s.Raised k) ∧ .settle .riskFactor m made ∈ log ∧ s.Explored log k

end

variable {s : Setting} {root : Identity} {roots path : List Mrn} {done done' risks risks' : List (Mrn × Bool)}
  {log log' : List Edit} {p : Policy} {k : RiskFactor} {d d₀ : Draft} {e : Edit}

theorem Lawful.mono (h : s.Lawful roots done risks e) (hd : done <:+ done') (hr : risks ⊆ risks') :
    s.Lawful roots done' risks' e := by
  cases h with
  | note x => exact .note x
  | query hq he => exact .query hq he
  | raising hp hf hk ha hm he => exact .raising hp hf hk ha (hr hm) he
  | policy hp ht => exact .policy hp (ht.trans hd)
  | settlePolicy made hp => exact .settlePolicy made hp
  | settleRiskFactor made hp hf hk => exact .settleRiskFactor made hp hf hk

theorem Lawful.widen {roots' : List Mrn} (h : s.Lawful roots done risks e)
    (hr : ∀ p, s.Walked roots p → s.Walked roots' p) : s.Lawful roots' done risks e := by
  cases h with
  | note x => exact .note x
  | query hq he => exact .query (hq.widen hr) he
  | raising hp hf hk ha hm he => exact .raising (hr _ hp) hf hk ha hm he
  | policy hp ht => exact .policy (hr _ hp) ht
  | settlePolicy made hp => exact .settlePolicy made (hr _ hp)
  | settleRiskFactor made hp hf hk => exact .settleRiskFactor made (hr _ hp) hf hk

theorem Hung.mono (h : Hung root roots done e) (hd : done <:+ done') : Hung root roots done' e := by
  obtain ⟨m, hm, hdone, he⟩ := h
  exact ⟨m, hm, hd.subset hdone, he⟩

theorem Explored.mono (h : s.Explored log k) (hl : log ⊆ log') : s.Explored log' k := by
  intro ha
  obtain ⟨hc, hr⟩ := h ha
  exact ⟨fun e he => hl (hc e he), fun hne e he => hl (hr hne e he)⟩

theorem Followed.mono {r : Reference} (h : s.Followed path done log p r) (hd : done ⊆ done') (hl : log ⊆ log') :
    s.Followed path done' log' p r := by
  cases r with
  | query role r => exact fun e he => hl (h e he)
  | riskFactor m =>
    intro k hk
    obtain ⟨⟨made, hs⟩, hx⟩ := h k hk
    exact ⟨⟨made, hl hs⟩, hx.mono hl⟩
  | policy r =>
    intro ha q hq
    rcases h ha q hq with hm | hm
    · exact .inl (List.map_subset _ hd hm)
    · exact .inr hm

namespace Told

variable (h : s.Told root roots d₀ path log d)
include h

theorem extend (hl : ∀ e ∈ log', s.Lawful roots d.policies d.riskFactors e ∨ Hung root roots d.policies e)
    (hp : ∀ e ∈ log', e.entries .policy = []) (hr : ∀ e ∈ log', e.entries .riskFactor = []) :
    s.Told root roots d₀ path (log ++ log') (d.replay log') := by
  have hps : (d.replay log').policies = d.policies := Draft.replay_ledger_of_forall hp
  have hrs : (d.replay log').riskFactors = d.riskFactors := Draft.replay_ledger_of_forall hr
  have hsub : log ⊆ log ++ log' := List.subset_append_left ..
  refine ⟨?_, ?_, ?_, ?_, ?_, ?_, ?_⟩
  · rw [Draft.replay_append, ← h.eq]
  · rw [hps, hrs]
    intro e he
    rcases List.mem_append.mp he with he | he
    · exact h.sound e he
    · exact hl e he
  · rw [hps]
    exact h.once
  · rw [hps]
    exact h.apart
  · rw [hps]
    intro m made tail ht
    obtain ⟨p, hp, hw, hm, hs⟩ := h.settled m made tail ht
    exact ⟨p, hp, hw, hm, fun hmade => hsub (hs hmade)⟩
  · rw [hps]
    intro m hm p hp r hr
    exact (h.followed m hm p hp r hr).mono (List.Subset.refl _) hsub
  · rw [hrs]
    intro m made hm
    obtain ⟨k, hk, hmade, hs, he⟩ := h.risks m made hm
    exact ⟨k, hk, hmade, hsub hs, he.mono hsub⟩

theorem graph : d.graph = d₀.graph.drawAll log := by
  rw [h.eq, Draft.replay_graph]

end Told

theorem Lawful.makes {i : Identity} {t : JobType} {sc : ScoringSystem} (h : s.Lawful roots done risks e)
    (hm : e.Makes i t sc) :
    (∃ role : Role, ∃ q ∈ s.bundle.queries.entries, i = role.identity q ∧ t = role.jobType) ∨
      (∃ m, i = .mrn m ∧ (Kind.riskFactor, m) ∈ s.bundle.names ∧ t = .riskFactor ∧ (m, true) ∈ risks) ∨
        ∃ m, i = .mrn m ∧ (Kind.policy, m) ∈ s.bundle.names ∧ t = .policy ∧ (m, true) ∈ done := by
  cases h with
  | note x => exact hm.elim
  | query hq he =>
    obtain ⟨q, hq, hi, ht, -⟩ := he.makes hq.mem hm
    exact .inl ⟨_, q, hq, hi, ht⟩
  | raising hp hf hk ha hr he =>
    simp only [Setting.raising, List.mem_cons, List.not_mem_nil, or_false] at he
    rcases he with rfl | rfl
    · obtain ⟨-, rfl, rfl, -⟩ := hm
      rw [← Keyed.key_of_find? hk] at hk
      exact .inr (.inl ⟨_, rfl, Bundle.mem_names_riskFactor.mpr ⟨_, hk⟩, rfl, hr⟩)
    · exact hm.elim
  | policy hp ht =>
    obtain ⟨-, rfl, rfl, -⟩ := hm
    exact .inr (.inr ⟨_, rfl, Bundle.mem_names_policy.mpr ⟨_, hp.declared⟩, rfl, ht.subset List.mem_cons_self⟩)
  | settlePolicy _ _ => exact hm.elim
  | settleRiskFactor _ _ _ _ => exact hm.elim

theorem Told.makes {i : Identity} {t : JobType} {sc : ScoringSystem} (h : s.Told root roots d₀ path log d)
    (he : e ∈ log) (hm : e.Makes i t sc) :
    (∃ role : Role, ∃ q ∈ s.bundle.queries.entries, i = role.identity q ∧ t = role.jobType) ∨
      (∃ m, i = .mrn m ∧ (Kind.riskFactor, m) ∈ s.bundle.names ∧ t = .riskFactor ∧ (m, true) ∈ d.riskFactors) ∨
        ∃ m, i = .mrn m ∧ (Kind.policy, m) ∈ s.bundle.names ∧ t = .policy ∧ (m, true) ∈ d.policies := by
  rcases h.sound e he with he | ⟨n, -, -, rfl⟩
  · exact he.makes hm
  · exact hm.elim

structure Blank (root : Identity) (d : Draft) : Prop where
  linked : d.graph.Linked root
  has : ∀ i, d.graph.Has i ↔ i = root
  bare : ∀ i m id, ¬d.graph.Backed i m id
  edgeless : ∀ i c, ¬d.graph.Edge i c

namespace Told

variable (h : s.Told root roots d₀ path log d) (hb : Blank root d₀)
include h hb

theorem unique : d.graph.Unique := by
  rw [h.graph]
  exact Graph.drawAll_unique hb.linked.unique log

theorem has_iff {i : Identity} : d.graph.Has i ↔ i = root ∨ ∃ e ∈ log, ∃ t sc, e.Makes i t sc := by
  rw [h.graph, Graph.drawAll_has hb.linked.unique, hb.has]

theorem has_policy {m : Mrn} (hm : (m, true) ∈ d.policies) : d.graph.Has (.mrn m) := by
  obtain ⟨l, tail, hl⟩ := List.append_of_mem hm
  obtain ⟨p, -, -, hmade, hs⟩ := h.settled m true tail ⟨l, hl.symm⟩
  exact (h.has_iff hb).mpr (.inr ⟨_, hs rfl, _, _, hmade.mp rfl, rfl, rfl, rfl⟩)

theorem has_riskFactor {m : Mrn} (hm : (m, true) ∈ d.riskFactors) : d.graph.Has (.mrn m) := by
  obtain ⟨k, hk, hmade, -, he⟩ := h.risks m true hm
  obtain ⟨ha, hl⟩ := hmade.mp rfl
  have hs := (he ha).2 hl _ List.mem_cons_self
  obtain rfl := Keyed.key_of_find? hk
  exact (h.has_iff hb).mpr (.inr ⟨_, hs, _, _, hl, rfl, rfl, rfl⟩)

variable (hd : s.bundle.Distinct)
include hd

theorem fresh {k : Kind} {m : Mrn} (hk : (k, m) ∈ s.bundle.names) (hq : k ≠ .query)
    (hpolicy : k = .policy → m ∉ d.policies.map Prod.fst) (hrisk : k = .riskFactor → m ∉ d.riskFactors.map Prod.fst)
    (hr : .mrn m ≠ root) : ¬d.graph.Has (.mrn m) := by
  rw [h.has_iff hb]
  rintro (hroot | ⟨e, he, t, sc, hmakes⟩)
  · exact hr hroot
  · rcases h.makes he hmakes with ⟨role, q, hmem, hi, -⟩ | ⟨n, hi, hname, -, hdone⟩ | ⟨n, hi, hname, -, hdone⟩
    · obtain rfl := Role.mrn_of_identity hi.symm
      exact hq (hd.kind_eq hk (Bundle.query_named hmem))
    · obtain rfl := Identity.mrn.inj hi
      exact hrisk (hd.kind_eq hk hname) (List.mem_map_of_mem hdone)
    · obtain rfl := Identity.mrn.inj hi
      exact hpolicy (hd.kind_eq hk hname) (List.mem_map_of_mem hdone)

end Told

theorem Told.settled_mem (h : s.Told root roots d₀ path log d) {m : Mrn} {made : Bool} (hm : (m, made) ∈ d.policies) :
    ∃ p, s.bundle.policies.find? m = some p := by
  obtain ⟨l, tail, hl⟩ := List.append_of_mem hm
  obtain ⟨p, hp, -⟩ := h.settled m made tail ⟨l, hl.symm⟩
  exact ⟨p, hp⟩

theorem eq_of_mem_ledger {l : List (Mrn × Bool)} (hl : (l.map Prod.fst).Nodup) {m : Mrn} {a b : Bool}
    (ha : (m, a) ∈ l) (hb : (m, b) ∈ l) : a = b :=
  (Prod.mk.inj (List.inj_on_of_nodup_map hl ha hb rfl)).2

theorem Told.replay_eq {d' : Draft} (h : s.Told root roots d₀ path log d)
    (h' : s.Told root roots d₀ path (log ++ log') d') : d' = d.replay log' := by
  rw [h'.eq, Draft.replay_append, ← h.eq]

theorem Told.walked_followed {roots' : List Mrn} (h : s.Told root roots d₀ path log d)
    (hroots : ∀ m ∈ roots' ++ path, m ∉ d.policies.map Prod.fst → ∀ p, s.bundle.policies.find? m = some p →
      ∀ r ∈ p.references s.asset s.now, s.Followed path d.policies log p r) (hp : s.Walked roots' p) :
    ∀ r ∈ p.references s.asset s.now, s.Followed path d.policies log p r := by
  have settled : ∀ m p, s.bundle.policies.find? m = some p → m ∈ d.policies.map Prod.fst ∨ m ∈ roots' ++ path →
      ∀ r ∈ p.references s.asset s.now, s.Followed path d.policies log p r := by
    intro m p hp hm
    by_cases hd : m ∈ d.policies.map Prod.fst
    · exact h.followed m hd p hp
    · exact hroots m (hm.resolve_left hd) hd p hp
  induction hp with
  | root hm hp => exact settled _ _ hp (.inr (List.mem_append_left _ hm))
  | included _ hi ih =>
    obtain ⟨g, hg, r, hr, ha, hq⟩ := hi
    refine settled _ _ hq ?_
    have hf := ih _ (Policy.mem_references_policy.mpr ⟨g, hg, hr⟩) ha _ hq
    exact hf.imp id (List.mem_append_right _)

theorem mem_log_of_referenced {role : Role} {q : Query}
    (hf : ∀ p, s.Walked roots p → ∀ r ∈ p.references s.asset s.now, s.Followed path done log p r)
    (h : s.Referenced roots role q) (he : s.Draws role ([], q) e) : e ∈ log := by
  cases h with
  | policy hp hg hr ha => exact hf _ hp _ (Policy.mem_references_query.mpr ⟨_, hg, hr⟩) e ⟨q, ha, he⟩
  | riskFactor hp hk hfind ha hr hq =>
    exact ((hf _ hp _ (Policy.mem_references_riskFactor.mpr ⟨_, hk, rfl⟩) _ hfind).2 ha).1 e ⟨_, hr, q, hq, he⟩

end Setting

end Compliance
