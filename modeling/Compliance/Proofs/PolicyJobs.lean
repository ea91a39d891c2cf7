import Compliance.Proofs.RiskFactorJobs

namespace Compliance

namespace Setting

section

variable (s : Setting) (roots : List Mrn)

/-- What a reference of a policy leads to. Whether a policy below has a job is left open, as it has where it is a child. -/
def Conveys (p : Policy) (c : Identity) : Mention → Prop
  | .query role r => ∃ q, s.Asks (s.overrides.effective p.mrn r.mrn r.action) r q ∧ s.Founded q ∧ c = role.identity q
  | .policy r => s.overrides.effective p.mrn r.mrn r.action ≠ .deactivate ∧ c = .mrn r.mrn ∧
    ∃ q, s.bundle.policies.find? r.mrn = some q
  | .riskFactor f => c = .mrn f.mrn ∧ ∃ k, s.Rated roots k ∧ k.mrn = f.mrn

def mentionImpact (p : Policy) (x : Mention) : Impact where
  scoring := if s.overrides.effective p.mrn x.mrn x.action = .ignore then .ignoreScore else x.scoring.getD .unspecified
  weight := x.weight

structure Appraises (g : Graph) : Prop where
  scoring : ∀ j ∈ g.jobs, j.type = .policy → ∃ p v, s.Walked roots p ∧ j.identity = .mrn p.mrn ∧
    s.Foremost roots (fun q => q.lastSaid s.asset s.now Mention.scoring p.mrn) v ∧ j.scoring = v.getD p.scoring
  impact : ∀ p, s.Walked roots p → ∀ c w, g.Weighs (.mrn p.mrn) c w → ∃ before x after,
    p.mentions s.asset s.now = before ++ x :: after ∧ s.Conveys roots p c x ∧ (∀ y ∈ before, ¬s.Conveys roots p c y) ∧
      w = s.mentionImpact p x
  child : ∀ p, s.Walked roots p → ∀ c, ∀ x ∈ p.mentions s.asset s.now, s.Conveys roots p c x → (∀ r, x ≠ .policy r) →
    g.Edge (.mrn p.mrn) c

end

variable {s : Setting} {roots : List Mrn} {p : Policy} {c : Identity} {w : Impact} {x : Mention} {done : List (Mrn × Bool)}

theorem linksAt_eq_mentions : s.linksAt done p =
    (p.mentions s.asset s.now).filterMap fun x => s.referenceLink done p x.reference := by
  rw [linksAt, Policy.references_eq_mentions, List.filterMap_map]
  rfl

theorem conveys_of_link (h : s.Proper) (hs : s.Collected roots) (hdone : ∀ x ∈ done, (Kind.policy, x.1) ∈ s.bundle.names)
    (hp : s.Walked roots p) (hx : x ∈ p.mentions s.asset s.now) (hl : s.referenceLink done p x.reference = some (c, w)) :
    s.Conveys roots p c x ∧ w = s.mentionImpact p x := by
  cases x with
  | query role r =>
    obtain ⟨q, ha, hy, he⟩ := queryLink_eq_some.mp hl
    obtain ⟨rfl, rfl⟩ := Prod.mk.inj he
    exact ⟨⟨q, ha, (founded_iff_yields ha.mem).mpr hy, rfl⟩, Impact.of_activation ..⟩
  | policy r =>
    obtain ⟨ha, hr, he⟩ := referenceLink_policy_eq_some.mp hl
    obtain ⟨rfl, rfl⟩ := Prod.mk.inj he
    exact ⟨⟨ha, rfl, Bundle.mem_names_policy.mp (hdone _ hr)⟩, Impact.of_activation ..⟩
  | riskFactor f =>
    obtain ⟨⟨k, hk, hr⟩, he⟩ := referenceLink_riskFactor_eq_some.mp hl
    obtain ⟨rfl, rfl⟩ := Prod.mk.inj he
    have hm := Keyed.key_of_find? hk
    have hf := Policy.mem_mentions_riskFactor.mp hx
    have hname : (Kind.riskFactor, k.mrn) ∈ s.bundle.names := Bundle.mem_names_riskFactor.mpr ⟨k, hm ▸ hk⟩
    have hactive := effective_of_active h hs hname hr.1 hp hx hm.symm
    refine ⟨⟨rfl, exists_rated_iff.mpr ⟨p, f, k, hp, hf, hk, hr, rfl⟩⟩, ?_⟩
    have hne : s.overrides.effective p.mrn (Mention.riskFactor f).mrn (Mention.riskFactor f).action ≠ .ignore := by
      rcases hactive with he | he <;> rw [he] <;> simp
    rw [mentionImpact, if_neg hne]
    rfl

theorem exists_link_of_conveys (hd : s.bundle.Distinct) (hl : s.Conveys roots p c x)
    (hc : ∀ r, x = .policy r → c ∈ (s.linksAt done p).map Prod.fst) :
    ∃ w, s.referenceLink done p x.reference = some (c, w) := by
  cases x with
  | query role r =>
    obtain ⟨q, ha, hf, rfl⟩ := hl
    exact ⟨_, queryLink_eq_some.mpr ⟨q, ha, (founded_iff_yields ha.mem).mp hf, rfl⟩⟩
  | policy r =>
    obtain ⟨ha, rfl, hq⟩ := hl
    have hr := settled_of_mem_linksAt hd (Bundle.mem_names_policy.mpr hq) (hc r rfl)
    exact ⟨_, referenceLink_policy_eq_some.mpr ⟨ha, hr, rfl⟩⟩
  | riskFactor f =>
    obtain ⟨rfl, k, hk, hm⟩ := hl
    exact ⟨_, referenceLink_riskFactor_eq_some.mpr ⟨⟨k, hm ▸ hk.declared, hk.raised⟩, rfl⟩⟩

theorem exists_first_mention (h : s.Proper) (hs : s.Collected roots)
    (hdone : ∀ x ∈ done, (Kind.policy, x.1) ∈ s.bundle.names) (hp : s.Walked roots p)
    (hl : (s.linksAt done p).lookup c = some w) : ∃ before x after, p.mentions s.asset s.now = before ++ x :: after ∧
      s.Conveys roots p c x ∧ (∀ y ∈ before, ¬s.Conveys roots p c y) ∧ w = s.mentionImpact p x := by
  have hc : c ∈ (s.linksAt done p).map Prod.fst := mem_map_fst_iff_lookup.mpr ⟨w, hl⟩
  rw [linksAt_eq_mentions] at hl
  obtain ⟨before, x, after, hsplit, hx, hbefore⟩ := lookup_filterMap_eq_some.mp hl
  obtain ⟨hconveys, hw⟩ := conveys_of_link h hs hdone hp (by simp [hsplit]) hx
  refine ⟨before, x, after, hsplit, hconveys, fun y hy hly => ?_, hw⟩
  obtain ⟨w', hlink⟩ := exists_link_of_conveys h.distinct hly fun _ _ => hc
  exact hbefore y hy w' hlink

theorem Rounds.appraises {root : Identity} {path : List Mrn} {start walked d : Draft} {log rest : List Edit}
    (hr : s.Rounds root roots path start log rest walked d) (h : s.Proper) (hs : s.Collected roots) :
    s.Appraises roots d.graph.shareMrns where
  scoring j hj ht := by
    have hjob : d.graph.shareMrns.Typed j.identity .policy j.scoring := ⟨j, hj, rfl, ht, rfl⟩
    obtain ⟨p, hp, hi, hsc⟩ := hr.policy_job (Graph.shareMrns_typed.mp hjob)
    exact ⟨p, _, hp, hi, scoring_foremost hs p.mrn, hsc⟩
  impact p hp c w hw := by
    obtain ⟨done, hdone, hweighs⟩ := hr.exists_weighs_iff h.distinct hp
    exact exists_first_mention h hs hdone hp ((hweighs c w).mp (Graph.shareMrns_weighs.mp hw))
  child p hp c x hx hl hne := by
    obtain ⟨done, hdone, hweighs⟩ := hr.exists_weighs_iff h.distinct hp
    obtain ⟨w, hlink⟩ : ∃ w, s.referenceLink done p x.reference = some (c, w) :=
      exists_link_of_conveys h.distinct hl fun r he => absurd he (hne r)
    have hmem : (c, w) ∈ s.linksAt done p := by
      rw [linksAt_eq_mentions]
      exact List.mem_filterMap.mpr ⟨x, hx, hlink⟩
    obtain ⟨w', hl'⟩ := mem_map_fst_iff_lookup.mp (List.mem_map_of_mem hmem)
    exact Graph.shareMrns_edge.mpr (Graph.edge_iff.mpr ⟨w', (hweighs c w').mpr hl'⟩)

end Setting

theorem Bundle.resolve_appraises {b : Bundle} {r : Request} {res : Resolution} (hb : b.Distinct)
    (h : b.resolve r = .ok res) : (b.setting r).Appraises r.target.assigned res.graph := by
  obtain ⟨-, path, start, log, rest, walked, d, hrounds, hg, -⟩ := exists_rounds hb h
  rw [hg]
  exact hrounds.appraises (hb.proper r) (b.setting_collected r)

def weighedBundle : Bundle where
  policies := .ofList [
    { mrn := "p", groups := [
      { checks := [{ mrn := "x", impact := some 70 }, { mrn := "y", action := .ignore, impact := some 30 }],
        policies := [{ mrn := "q" }, { mrn := "r", scoring := some .average }] }] },
    { mrn := "q", groups := [{ policies := [{ mrn := "r", scoring := some .worst }] }] },
    { mrn := "r", groups := [{ checks := [{ mrn := "z" }] }] }]
  queries := .ofList [{ mrn := "x", code := some { id := "c" } }, { mrn := "y", code := some { id := "c" } },
    { mrn := "z", code := some { id := "cz" } }]

theorem weighedBundle_appraises : weighedBundle.Distinct ∧ ∃ res, weighedBundle.resolve (policyRequest "p") = .ok res ∧
    (weighedBundle.setting (policyRequest "p")).Appraises ["p"] res.graph ∧
      res.graph.Weighs (.mrn "p") (.code "c") { weight := some 70 } ∧ res.graph.Typed (.mrn "r") .policy .average := by
  have hb : weighedBundle.Distinct := by decide +kernel
  have hs : (weighedBundle.scope ["p"]).covers Keyed.empty = true := by decide +kernel
  have h := Bundle.resolve_of_policy (r := policyRequest "p") rfl rfl hs
  refine ⟨hb, _, h, Bundle.resolve_appraises hb h, ?_⟩
  simp only [Graph.Weighs, Graph.Typed, Graph.Holds, Bundle.finish]
  decide +kernel

end Compliance
