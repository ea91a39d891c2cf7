import Compliance.Proofs.ControlJobs
import Compliance.Proofs.Counterparts

namespace Compliance

namespace Bundle

section

variable (b : Bundle) (assigned : List Mrn) (now : Timestamp) (m : Mrn)

def Cites (type : GroupType) : Prop :=
  ∃ f g, b.Adopts assigned f ∧ g ∈ f.groups ∧ g.type = type ∧ g.inForce now = true ∧ m ∈ g.controls

def Removes : Prop := b.Cites assigned now m .disable ∨ b.Cites assigned now m .outOfScope

def Excepts : Prop := b.Cites assigned now m .exception

/-- A name of no policy, framework, query or risk factor, and not the root's. -/
def Unshared : Prop := m ≠ "root" ∧ ∀ k, (k, m) ∈ b.names → k = .control

structure Heeds (g : Graph) : Prop where
  removed : ∀ m, b.Removes assigned now m → ¬g.Holds (.mrn m) fun j => j.type = .control
  gone : ∀ m, b.Removes assigned now m → b.Unshared m → ¬g.Has (.mrn m) ∧ ∀ i, ¬g.Edge i (.mrn m)
  excepted : ∀ i m w, g.Holds (.mrn m) (fun j => j.type = .control) → b.Excepts assigned now m →
    g.Weighs i (.mrn m) w → w = .ignored
  ordinary : ∀ i m w, g.Holds (.mrn m) (fun j => j.type = .control) → ¬b.Excepts assigned now m →
    g.Weighs i (.mrn m) w → w = {}

end

end Bundle

namespace Setting

variable {s : Setting} {frameworks : List Mrn} {d : Draft} {m : Mrn}

theorem scopeOf_removed : m ∈ (s.scopeOf frameworks d).removed ↔ s.bundle.Removes frameworks s.now m := by
  have hmodifier : ∀ t : GroupType, t.isModifier = true ∧ t ≠ .exception ↔ t = .disable ∨ t = .outOfScope := by
    intro t
    cases t <;> decide
  have hactive : (s.discovered frameworks).filterMap (·.2) = s.adopting [] frameworks := rfl
  simp only [scopeOf, controlScope, hactive, Framework.modifierGroups, List.mem_flatMap, List.mem_filter, mem_adopting,
    Bool.and_eq_true, bne_iff_ne]
  constructor
  · rintro ⟨g, ⟨⟨f, hf, hg, ht, hnow⟩, hne⟩, hm⟩
    rcases (hmodifier g.type).mp ⟨ht, hne⟩ with ht | ht
    · exact .inl ⟨f, g, hf, hg, ht, hnow, hm⟩
    · exact .inr ⟨f, g, hf, hg, ht, hnow, hm⟩
  · rintro (⟨f, g, hf, hg, ht, hnow, hm⟩ | ⟨f, g, hf, hg, ht, hnow, hm⟩)
    · obtain ⟨hmod, hne⟩ := (hmodifier g.type).mpr (.inl ht)
      exact ⟨g, ⟨⟨f, hf, hg, hmod, hnow⟩, hne⟩, hm⟩
    · obtain ⟨hmod, hne⟩ := (hmodifier g.type).mpr (.inr ht)
      exact ⟨g, ⟨⟨f, hf, hg, hmod, hnow⟩, hne⟩, hm⟩

theorem scopeOf_excepted : m ∈ (s.scopeOf frameworks d).excepted ↔ s.bundle.Excepts frameworks s.now m := by
  have hactive : (s.discovered frameworks).filterMap (·.2) = s.adopting [] frameworks := rfl
  simp only [scopeOf, controlScope, hactive, Framework.modifierGroups, List.mem_flatMap, List.mem_filter, mem_adopting,
    Bool.and_eq_true, beq_iff_eq]
  constructor
  · rintro ⟨g, ⟨⟨f, hf, hg, -, hnow⟩, ht⟩, hm⟩
    exact ⟨f, g, hf, hg, ht, hnow, hm⟩
  · rintro ⟨f, g, hf, hg, ht, hnow, hm⟩
    exact ⟨g, ⟨⟨f, hf, hg, by rw [ht]; rfl, hnow⟩, ht⟩, hm⟩

theorem standing_eq_absent : (s.scopeOf frameworks d).standing m = .absent ↔ s.bundle.Removes frameworks s.now m := by
  rw [← scopeOf_removed (d := d), ControlScope.standing]
  split <;> simp_all [ite_eq_iff]

theorem standing_of_excepts (hr : ¬s.bundle.Removes frameworks s.now m) (he : s.bundle.Excepts frameworks s.now m) :
    (s.scopeOf frameworks d).standing m = .ignored := by
  rw [ControlScope.standing, if_neg (mt scopeOf_removed.mp hr), if_pos (scopeOf_excepted.mpr he)]

theorem standing_of_ordinary (hr : ¬s.bundle.Removes frameworks s.now m) (he : ¬s.bundle.Excepts frameworks s.now m) :
    (s.scopeOf frameworks d).standing m = .active := by
  rw [ControlScope.standing, if_neg (mt scopeOf_removed.mp hr), if_neg (mt scopeOf_excepted.mp he)]

namespace Assessed

variable {asset : Mrn} {ms : List Mrn} {c : ControlScope} {d₀ d : Draft} {log log' : List Edit}
  (h : s.Assessed asset ms frameworks c d₀ d log log')
include h

theorem standing_iff : c.standing m = .absent ↔ s.bundle.Removes frameworks s.now m := by
  rw [h.scope]
  exact standing_eq_absent

theorem not_removed (hm : (m, true) ∈ d.controls) : ¬s.bundle.Removes frameworks s.now m := by
  obtain ⟨tail, -, hs, -⟩ := h.settled hm
  exact mt h.standing_iff.mpr hs

theorem not_has (hr : s.bundle.Removes frameworks s.now m) (hm : s.bundle.Unshared m) : ¬d.graph.Has (.mrn m) := by
  obtain ⟨hroot, hkind⟩ := hm
  rintro ⟨j, hj, hi, -⟩
  -- jobs are drawn for assigned policies, for controls and for frameworks, and the name is a control's alone
  rcases h.typed ⟨j, hj, hi, rfl, rfl⟩ with ⟨k, hk, hki, -⟩ | ⟨n, hn, -, hmade⟩ | ⟨f, hf, -, hfind⟩
  · rcases h.assigned.job hk with ⟨hkr, -⟩ | ⟨role, q, hq, hkq, -⟩ | ⟨kind, n, hkn, hname, hkind'⟩
    · exact hroot (Identity.mrn.inj (hki.symm.trans hkr))
    · obtain rfl := Role.mrn_of_identity (hkq.symm.trans hki)
      cases hkind _ (Bundle.query_named hq)
    · obtain rfl := Identity.mrn.inj (hki.symm.trans hkn)
      cases hkind _ hname
      rcases hkind' with ⟨hk, -⟩ | ⟨hk, -⟩ <;> cases hk
  · obtain rfl := Identity.mrn.inj hn
    exact h.not_removed hmade hr
  · obtain rfl := Identity.mrn.inj hf
    cases hkind _ (Bundle.mem_names_framework.mpr ⟨f, hfind⟩)

theorem heeds (hl : d.graph.Linked assetRoot) : s.bundle.Heeds frameworks s.now d.graph where
  removed m hr hj := h.not_removed (h.typed_iff.mp hj) hr
  gone m hr hm := ⟨h.not_has hr hm, fun i he => h.not_has hr hm (hl.forth _ _ he).has⟩
  excepted i m w hj he hw := by
    have hm := h.typed_iff.mp hj
    obtain ⟨-, rfl⟩ := h.weighs hm hw
    rw [h.scope, standing_of_excepts (h.not_removed hm) he]
    rfl
  ordinary i m w hj he hw := by
    have hm := h.typed_iff.mp hj
    obtain ⟨-, rfl⟩ := h.weighs hm hw
    rw [h.scope, standing_of_ordinary (h.not_removed hm) he]
    rfl

end Assessed

end Setting

namespace Bundle

theorem Heeds.shareMrns {b : Bundle} {assigned : List Mrn} {now : Timestamp} {g : Graph} (h : b.Heeds assigned now g) :
    b.Heeds assigned now g.shareMrns := by
  refine ⟨fun m hr hj => h.removed m hr (Graph.shareMrns_holds_type.mp hj), fun m hr hm => ?_, fun i m w hj he hw => ?_,
    fun i m w hj he hw => ?_⟩
  · obtain ⟨hhas, hedge⟩ := h.gone m hr hm
    exact ⟨mt (Graph.shareMrns_holds fun _ _ => Iff.rfl).mp hhas, fun i he => hedge i (Graph.shareMrns_edge.mp he)⟩
  · exact h.excepted i m w (Graph.shareMrns_holds_type.mp hj) he (Graph.shareMrns_weighs.mp hw)
  · exact h.ordinary i m w (Graph.shareMrns_holds_type.mp hj) he (Graph.shareMrns_weighs.mp hw)

variable {b : Bundle} {asset : Mrn} {policies frameworks : List Mrn} {filters : PredicateSet} {now : Timestamp}
  {res : Resolution}

theorem resolve_heeds (hb : b.Distinct) (h : b.resolve ⟨.asset asset policies frameworks, filters, now⟩ = .ok res) :
    b.Heeds frameworks now res.graph := by
  obtain ⟨c, d₀, d, log, log', whole, ha, hs, hg⟩ := exists_assessed_of_resolve hb h
  rw [hg]
  exact (ha.heeds hs.grown.linked).shareMrns

end Bundle

structure Framework.Reorders (f f' : Framework) : Prop where
  mrn : f'.mrn = f.mrn
  groups : f'.groups.Perm f.groups
  dependencies : f'.dependencies.Perm f.dependencies

namespace Bundle

section

variable {b : Bundle} {frameworks frameworks' : List Mrn} {now : Timestamp} {m : Mrn} {type : GroupType}
  {fs : Keyed Framework.mrn}

def Reframes (b : Bundle) (fs : Keyed Framework.mrn) : Prop :=
  ∀ m, Option.Rel Framework.Reorders (b.frameworks.find? m) (fs.find? m)

theorem Reframes.symm (h : b.Reframes fs) : ({ b with frameworks := fs }).Reframes b.frameworks := by
  intro m
  have hrel := h m
  change Option.Rel _ (fs.find? m) (b.frameworks.find? m)
  generalize b.frameworks.find? m = found, fs.find? m = found' at hrel ⊢
  cases hrel with
  | none => exact .none
  | some hf => exact .some ⟨hf.mrn.symm, hf.groups.symm, hf.dependencies.symm⟩

theorem Reframes.find? {f : Framework} (h : b.Reframes fs) (hf : b.frameworks.find? m = some f) :
    ∃ f', fs.find? m = some f' ∧ f.Reorders f' := by
  have hrel := h m
  rw [hf] at hrel
  generalize hf' : fs.find? m = found at hrel
  cases hrel with
  | some hr => exact ⟨_, rfl, hr⟩

theorem Reframes.adopts {f : Framework} (h : b.Reframes fs) (hs : frameworks ⊆ frameworks') (ha : b.Adopts frameworks f) :
    ∃ f', ({ b with frameworks := fs }).Adopts frameworks' f' ∧ f.Reorders f' := by
  induction ha with
  | assigned hm hf =>
    obtain ⟨f', hf', hr⟩ := h.find? hf
    exact ⟨f', .assigned (hs hm) hf', hr⟩
  | dependency _ hr ha hf ih =>
    obtain ⟨g', hg', hreorders⟩ := ih
    obtain ⟨f', hf', hr'⟩ := h.find? hf
    exact ⟨f', .dependency hg' (hreorders.dependencies.symm.subset hr) ha hf', hr'⟩

theorem Reframes.cites (h : b.Reframes fs) (hs : frameworks ⊆ frameworks') (hm : b.Cites frameworks now m type) :
    ({ b with frameworks := fs }).Cites frameworks' now m type := by
  obtain ⟨f, g, hf, hg, ht⟩ := hm
  obtain ⟨f', hf', hr⟩ := h.adopts hs hf
  exact ⟨f', g, hf', hr.groups.symm.subset hg, ht⟩

theorem Reframes.cites_iff (h : b.Reframes fs) (hp : frameworks.Perm frameworks') :
    ({ b with frameworks := fs }).Cites frameworks' now m type ↔ b.Cites frameworks now m type :=
  ⟨h.symm.cites hp.symm.subset, h.cites hp.subset⟩

theorem Reframes.mem_names (h : b.Reframes fs) {k : Kind} :
    (k, m) ∈ ({ b with frameworks := fs }).names ↔ (k, m) ∈ b.names := by
  cases k with
  | framework =>
    rw [mem_names_framework, mem_names_framework]
    constructor
    · rintro ⟨f, hf⟩
      obtain ⟨f', hf', -⟩ := h.symm.find? hf
      exact ⟨f', hf'⟩
    · rintro ⟨f, hf⟩
      obtain ⟨f', hf', -⟩ := h.find? hf
      exact ⟨f', hf'⟩
  | _ => simp [names, evidence]

theorem Reframes.distinct (h : b.Reframes fs) (hb : b.Distinct) : ({ b with frameworks := fs }).Distinct where
  kinds := fun ⟨_, _⟩ hx ⟨_, _⟩ hy => hb.kinds _ (h.mem_names.mp hx) _ (h.mem_names.mp hy)
  noRoot := fun ⟨_, _⟩ hx => hb.noRoot _ (h.mem_names.mp hx)

theorem Reframes.heeds {g : Graph} (h : b.Reframes fs) (hp : frameworks.Perm frameworks')
    (hg : ({ b with frameworks := fs }).Heeds frameworks' now g) : b.Heeds frameworks now g := by
  have hremoves : ∀ m, b.Removes frameworks now m → ({ b with frameworks := fs }).Removes frameworks' now m :=
    fun m => Or.imp (h.cites_iff hp).mpr (h.cites_iff hp).mpr
  refine ⟨fun m hr => hg.removed m (hremoves m hr), fun m hr hm => hg.gone m (hremoves m hr) ?_,
    fun i m w hj he => hg.excepted i m w hj ((h.cites_iff hp).mpr he),
    fun i m w hj he => hg.ordinary i m w hj (mt (h.cites_iff hp).mp he)⟩
  exact ⟨hm.1, fun k hk => hm.2 k (h.mem_names.mp hk)⟩

end

variable {b : Bundle} {r : Request} {fs : Keyed Framework.mrn}

theorem resolve_reframed
    (h : ∀ f, ({ b with frameworks := fs }).Adopts r.target.frameworks f ↔ b.Adopts r.target.frameworks f) :
    ({ b with frameworks := fs }).resolve r = b.resolve r := by
  refine resolve_of_mirrors ?_ rfl
  exact {
    asset := rfl
    now := rfl
    queries := rfl
    riskFactors := rfl
    maps := rfl
    action := rfl
    magnitude := rfl
    scoring := rfl
    undeclared := fun _ h => h
    policies := fun _ p hp => ⟨p, hp, rfl, rfl, rfl⟩
    adopts := h }

theorem resolve_modifications {asset : Mrn} {policies frameworks : List Mrn} {filters : PredicateSet} {now : Timestamp}
    {res : Resolution} (hb : b.Distinct) (h : b.resolve ⟨.asset asset policies frameworks, filters, now⟩ = .ok res) :
    b.Heeds frameworks now res.graph ∧
    (∀ fs, (∀ f, ({ b with frameworks := fs }).Adopts frameworks f ↔ b.Adopts frameworks f) →
      ({ b with frameworks := fs }).resolve ⟨.asset asset policies frameworks, filters, now⟩ = .ok res) ∧
    ∀ fs frameworks', b.Reframes fs → frameworks.Perm frameworks' → ∃ res',
      ({ b with frameworks := fs }).resolve ⟨.asset asset policies frameworks', filters, now⟩ = .ok res' ∧
        b.Heeds frameworks now res'.graph := by
  refine ⟨resolve_heeds hb h, fun fs hfs => (resolve_reframed hfs).trans h, fun fs frameworks' hfs hp => ?_⟩
  obtain ⟨scope, -, -, hscope, -, -⟩ := resolve_eq_ok.mp h
  have hscope' : ({ b with frameworks := fs }).checkScope ⟨.asset asset policies frameworks', filters, now⟩ = .ok scope :=
    hscope
  obtain ⟨res', hres'⟩ := exists_resolution hscope'
  exact ⟨res', hres', hfs.heeds hp (resolve_heeds (hfs.distinct hb) hres')⟩

end Bundle

def modifiedBundle : Bundle where
  policies := .ofList [{ mrn := "p", groups := [{ checks := [{ mrn := "x" }] }] }]
  frameworks := .ofList [
    { mrn := "f", dependencies := [{ mrn := "g" }, { mrn := "h", action := .deactivate }],
      groups := [{ controls := ["a", "c", "e"] }] },
    { mrn := "g", groups := [{ type := .exception, review := .accepted, controls := ["a", "e"] },
      { type := .disable, controls := ["a"] }] },
    { mrn := "h", groups := [{ type := .disable, controls := ["c"] }] }]
  maps := [{ mrn := "m", framework := "f", policies := ["p"], controls := [
    { mrn := "a", checks := [{ mrn := "x" }] }, { mrn := "c", checks := [{ mrn := "x" }], controls := ["a"] },
    { mrn := "e", checks := [{ mrn := "x" }] }] }]
  queries := .ofList [{ mrn := "x", code := some { id := "cx" } }]

theorem modifiedBundle_modifications : modifiedBundle.Distinct ∧
    modifiedBundle.Removes ["f"] 1700000000 "a" ∧ modifiedBundle.Excepts ["f"] 1700000000 "e" ∧
    ∃ res, modifiedBundle.resolve ⟨.asset "s" ["p"] ["f"], Keyed.empty, 1700000000⟩ = .ok res ∧
      modifiedBundle.Heeds ["f"] 1700000000 res.graph ∧
      ∃ j ∈ res.graph.jobs, j.identity = .mrn "f" ∧ j.children = [(.mrn "c", {}), (.mrn "e", .ignored)] := by
  have hb : modifiedBundle.Distinct := by decide +kernel
  have hs : (modifiedBundle.scope ["p"]).covers Keyed.empty = true := by decide +kernel
  have hf : modifiedBundle.Adopts ["f"]
      { mrn := "f", dependencies := [{ mrn := "g" }, { mrn := "h", action := .deactivate }],
        groups := [{ controls := ["a", "c", "e"] }] } := .assigned (m := "f") (by decide) (by decide +kernel)
  have hg : modifiedBundle.Adopts ["f"]
      { mrn := "g", groups := [{ type := .exception, review := .accepted, controls := ["a", "e"] },
        { type := .disable, controls := ["a"] }] } :=
    .dependency (r := { mrn := "g" }) hf (by decide) (by decide) (by decide +kernel)
  have h : modifiedBundle.resolve ⟨.asset "s" ["p"] ["f"], Keyed.empty, 1700000000⟩ = .ok _ := Bundle.resolve_asset hs
  obtain ⟨hheeds, -, -⟩ := Bundle.resolve_modifications hb h
  refine ⟨hb, .inl ⟨_, { type := .disable, controls := ["a"] }, hg, by decide, rfl, by decide, by decide⟩,
    ⟨_, { type := .exception, review := .accepted, controls := ["a", "e"] }, hg, by decide, rfl, by decide, by decide⟩,
    _, h, hheeds, ?_⟩
  decide +kernel

end Compliance
