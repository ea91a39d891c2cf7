import Compliance.Proofs.Composites
import Compliance.Proofs.Mentions
import Compliance.Proofs.Rounds

namespace Compliance

namespace Setting

/-- The declared risk factor that a walked policy refers to, that no override makes anything but active, that is meant
for the asset and has a check that ends in code. -/
structure Rated (s : Setting) (roots : List Mrn) (k : RiskFactor) : Prop where
  declared : s.bundle.riskFactors.find? k.mrn = some k
  referenced : ∃ p f, s.Walked roots p ∧ f ∈ p.riskReferences s.asset s.now ∧ f.mrn = k.mrn
  active : s.Active k
  checked : ∃ r ∈ k.checks, ∃ q, s.Asks ((s.overrides.overall r.mrn).orElse r.action) r q ∧ s.Founded q

structure Rates (s : Setting) (roots : List Mrn) (g : Graph) (magnitudes : NameMap Float32) : Prop where
  job : ∀ i, (∃ j ∈ g.jobs, j.identity = i ∧ j.type = .riskFactor) ↔ ∃ k, s.Rated roots k ∧ i = .mrn k.mrn
  key : ∀ m, m ∈ magnitudes.keys ↔ ∃ k, s.Rated roots k ∧ m = k.mrn
  magnitude : ∀ k, s.Rated roots k → ∃ v,
    s.Foremost roots (fun p => p.lastSaid s.asset s.now Mention.magnitude k.mrn) v ∧
      NameMap.get? magnitudes k.mrn = some (v.getD k.magnitude)
  edge : ∀ p f k, s.Walked roots p → f ∈ p.riskReferences s.asset s.now → s.Rated roots k → f.mrn = k.mrn →
    g.Weighs (.mrn p.mrn) (.mrn k.mrn) {}

variable {s : Setting} {roots : List Mrn} {p : Policy} {k : RiskFactor} {q : Query} {f : RiskFactorRef}
  {done : List (Mrn × Bool)} {m : Mrn} {w : Impact}

theorem Founded.exists_variants (h : s.Founded q) : ∃ v c, Relation.ReflTransGen s.Variant q v ∧ v.isComposite = false ∧
    v.code = some c := by
  induction h with
  | code hn hc => exact ⟨_, _, .refl, hn, hc⟩
  | variant hv _ ih =>
    obtain ⟨v, c, hp, hn, hc⟩ := ih
    exact ⟨v, c, .head hv hp, hn, hc⟩

theorem founded_iff_yields (hq : q ∈ s.bundle.queries.entries) : s.Founded q ↔ s.Yields [] q := by
  refine ⟨fun h => ?_, .of_yields⟩
  obtain ⟨v, c, hp, hn, hc⟩ := h.exists_variants
  obtain ⟨path, ht, -⟩ := exists_trail hq hp
  exact Yields.of_trail ht (.code hn hc)

theorem riskLinks_ne_nil : s.riskLinks k ≠ [] ↔
    ∃ r ∈ k.checks, ∃ q, s.Asks ((s.overrides.overall r.mrn).orElse r.action) r q ∧ s.Founded q := by
  rw [riskLinks, ne_eq, List.filterMap_eq_nil_iff]
  push Not
  refine exists_congr fun r => and_congr_right fun _ => ?_
  constructor
  · intro hl
    obtain ⟨l, hl⟩ := Option.ne_none_iff_exists'.mp hl
    obtain ⟨q, ha, hy, -⟩ := queryLink_eq_some.mp hl
    exact ⟨q, ha, (founded_iff_yields ha.mem).mpr hy⟩
  · rintro ⟨q, ha, hf⟩
    rw [queryLink_eq_some.mpr ⟨q, ha, (founded_iff_yields ha.mem).mp hf, rfl⟩]
    exact Option.some_ne_none _

theorem exists_rated_iff : (∃ k, s.Rated roots k ∧ k.mrn = m) ↔ ∃ p f k, s.Walked roots p ∧
    f ∈ p.riskReferences s.asset s.now ∧ s.bundle.riskFactors.find? f.mrn = some k ∧ s.Raised k ∧ f.mrn = m := by
  constructor
  · rintro ⟨k, ⟨hk, ⟨p, f, hp, hf, hm⟩, ha, hc⟩, rfl⟩
    exact ⟨p, f, k, hp, hf, hm ▸ hk, ⟨ha, riskLinks_ne_nil.mpr hc⟩, hm⟩
  · rintro ⟨p, f, k, hp, hf, hk, ⟨ha, hc⟩, rfl⟩
    have hm := Keyed.key_of_find? hk
    exact ⟨k, ⟨hm ▸ hk, ⟨p, f, hp, hf, hm.symm⟩, ha, riskLinks_ne_nil.mp hc⟩, hm⟩

theorem Rated.raised (h : s.Rated roots k) : s.Raised k := ⟨h.active, riskLinks_ne_nil.mpr h.checked⟩

theorem impact_of_riskFactor (hd : s.bundle.Distinct) (hdone : ∀ x ∈ done, (Kind.policy, x.1) ∈ s.bundle.names)
    (hm : (Kind.riskFactor, m) ∈ s.bundle.names) (hl : (s.linksAt done p).lookup (.mrn m) = some w) : w = {} := by
  obtain ⟨r, -, hlink⟩ := List.mem_filterMap.mp (mem_of_lookup hl)
  cases r with
  | query role r =>
    obtain ⟨q, ha, -, he⟩ := queryLink_eq_some.mp hlink
    rw [← Role.mrn_of_identity (Prod.mk.inj he).1.symm] at hm
    exact absurd (hd.kind_eq hm (Bundle.query_named ha.mem)) (by simp)
  | riskFactor n =>
    obtain ⟨-, he⟩ := referenceLink_riskFactor_eq_some.mp hlink
    exact (Prod.mk.inj he).2
  | policy r =>
    obtain ⟨-, hr, he⟩ := referenceLink_policy_eq_some.mp hlink
    rw [Identity.mrn.inj (Prod.mk.inj he).1] at hm
    exact absurd (hd.kind_eq hm (hdone _ hr)) (by simp)

theorem linksAt_lookup_riskFactor (hd : s.bundle.Distinct) (hdone : ∀ x ∈ done, (Kind.policy, x.1) ∈ s.bundle.names)
    (hf : f ∈ p.riskReferences s.asset s.now) (hk : s.bundle.riskFactors.find? f.mrn = some k) (hr : s.Raised k) :
    (s.linksAt done p).lookup (.mrn f.mrn) = some {} := by
  have hmem : .mrn f.mrn ∈ (s.linksAt done p).map Prod.fst := List.mem_map_of_mem (List.mem_filterMap.mpr
    ⟨_, Policy.mem_references_riskFactor.mpr ⟨f, hf, rfl⟩, referenceLink_riskFactor_eq_some.mpr ⟨⟨k, hk, hr⟩, rfl⟩⟩)
  obtain ⟨w, hl⟩ := mem_map_fst_iff_lookup.mp hmem
  rw [hl, impact_of_riskFactor hd hdone (Bundle.mem_names_riskFactor.mpr ⟨k, hk⟩) hl]

namespace Rounds

variable {root : Identity} {path : List Mrn} {start walked d : Draft} {log rest : List Edit}
  (h : s.Rounds root roots path start log rest walked d)
include h

theorem magnitude_eq (hk : s.Rated roots k) :
    NameMap.get? d.magnitudes k.mrn = some ((s.overrides.magnitude k.mrn).getD k.magnitude) := by
  obtain ⟨p, f, hp, hf, hm⟩ := hk.referenced
  refine h.magnitude_iff.mpr ⟨p, f, k, hp, hf, hm ▸ hk.declared, hk.raised, ?_⟩
  simp [Setting.raising]

theorem mem_keys_iff : m ∈ d.magnitudes.keys ↔ ∃ k, s.Rated roots k ∧ k.mrn = m := by
  rw [NameMap.mem_keys_iff]
  constructor
  · rintro ⟨x, hx⟩
    obtain ⟨p, f, k, hp, hf, hk, hr, he⟩ := h.magnitude_iff.mp hx
    refine exists_rated_iff.mpr ⟨p, f, k, hp, hf, hk, hr, ?_⟩
    simp only [Setting.raising, List.mem_cons, reduceCtorEq, Edit.weigh.injEq, List.not_mem_nil, or_false, false_or] at he
    rw [he.1, Keyed.key_of_find? hk]
  · rintro ⟨k, hk, rfl⟩
    exact ⟨_, h.magnitude_eq hk⟩

theorem rates (hs : s.Collected roots) (hd : s.bundle.Distinct) (hr : s.bundle.Apart root) :
    s.Rates roots d.graph.shareMrns d.magnitudes where
  job i := by
    have hjob : (∃ j ∈ d.graph.shareMrns.jobs, j.identity = i ∧ j.type = .riskFactor) ↔
        ∃ sc, d.graph.Typed i .riskFactor sc := by
      refine Graph.shareMrns_holds_type.trans ⟨?_, ?_⟩
      · rintro ⟨j, hj, hi, ht⟩
        exact ⟨_, j, hj, hi, ht, rfl⟩
      · rintro ⟨sc, j, hj, hi, ht, -⟩
        exact ⟨j, hj, hi, ht⟩
    rw [hjob, h.riskFactor_job hd hr]
    constructor
    · rintro ⟨p, f, k, hp, hf, hk, hraised, rfl⟩
      obtain ⟨k', hk', hm⟩ := exists_rated_iff.mpr ⟨p, f, k, hp, hf, hk, hraised, rfl⟩
      exact ⟨k', hk', congrArg _ hm.symm⟩
    · rintro ⟨k, hk, rfl⟩
      obtain ⟨p, f, k', hp, hf, hk', hraised, hm⟩ := exists_rated_iff.mp ⟨k, hk, rfl⟩
      exact ⟨p, f, k', hp, hf, hk', hraised, congrArg _ hm.symm⟩
  key m := h.mem_keys_iff.trans (exists_congr fun k => and_congr_right fun _ => eq_comm)
  magnitude k hk := ⟨_, magnitude_foremost hs k.mrn, h.magnitude_eq hk⟩
  edge p f k hp hf hk hm := by
    obtain ⟨done, hdone, hweighs⟩ := h.exists_weighs_iff hd hp
    rw [Graph.shareMrns_weighs, hweighs, ← hm]
    exact linksAt_lookup_riskFactor hd hdone hf (hm ▸ hk.declared) hk.raised

end Rounds

end Setting

/-- The jobs and the magnitudes of risk factors are those of the rated ones, and each policy that refers to one has
an edge to it that neither weighs it nor ignores it. -/
theorem Bundle.resolve_rates {b : Bundle} {r : Request} {res : Resolution} (hb : b.Distinct) (h : b.resolve r = .ok res) :
    (b.setting r).Rates r.target.assigned res.graph res.magnitudes := by
  obtain ⟨hr, path, start, log, rest, walked, d, hrounds, hg, hm⟩ := exists_rounds hb h
  rw [hg, hm]
  exact hrounds.rates (b.setting_collected r) hb hr

def ratedRisk : RiskFactor where
  mrn := "k"
  magnitude := 1
  checks := [{ mrn := "x" }]

def ratedBundle : Bundle where
  policies := .ofList [
    { mrn := "p", groups := [
      { checks := [{ mrn := "x" }], policies := [{ mrn := "q" }] },
      { riskFactors := [{ mrn := "k", magnitude := some 2 }, { mrn := "k", magnitude := some 3 }] }] },
    { mrn := "q", groups := [
      { riskFactors := [{ mrn := "k", magnitude := some 5 }, { mrn := "n", action := .ignore }] }] }]
  queries := .ofList [{ mrn := "x", code := some { id := "cx" } }, { mrn := "y", code := some { id := "cy" } }]
  riskFactors := .ofList [ratedRisk, { mrn := "n", checks := [{ mrn := "y" }] }]

theorem ratedBundle_rates : ratedBundle.Distinct ∧ ∃ res, ratedBundle.resolve (assetRequest ["p"]) = .ok res ∧
    (ratedBundle.setting (assetRequest ["p"])).Rates ["p"] res.graph res.magnitudes ∧
      (ratedBundle.setting (assetRequest ["p"])).Rated ["p"] ratedRisk := by
  have hb : ratedBundle.Distinct := by decide +kernel
  have hs : (ratedBundle.scope ["p"]).covers Keyed.empty = true := by decide +kernel
  obtain ⟨res, h⟩ := Bundle.exists_resolution (Bundle.checkScope_assetRequest hs)
  refine ⟨hb, res, h, Bundle.resolve_rates hb h, ?_⟩
  have hp : ∃ p, ratedBundle.policies.find? "p" = some p ∧ ∃ f ∈ p.riskReferences Keyed.empty 1700000000, f.mrn = "k" :=
    ⟨_, rfl, by decide +kernel⟩
  obtain ⟨p, hp, f, hf, hm⟩ := hp
  refine ⟨rfl, ⟨p, f, .root List.mem_cons_self hp, hf, hm⟩, ⟨?_, rfl⟩, _, List.mem_cons_self, _, ⟨?_, rfl, rfl⟩, .code rfl rfl⟩
  · decide +kernel
  · decide +kernel

end Compliance
