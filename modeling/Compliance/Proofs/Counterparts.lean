import Compliance.Proofs.InForce
import Compliance.Proofs.Reviews

namespace Compliance

section

variable {α κ : Type} [DecidableEq κ] {name : α → String} {pool pool' : Keyed name} {mark : α → κ} {next : α → List String}
  {met : List κ} {names : List String}

theorem preorder_pool {P : String → Prop} (hp : ∀ n, P n → pool'.find? n = pool.find? n)
    (hn : ∀ n a, P n → pool.find? n = some a → ∀ k ∈ next a, P k) (h : ∀ n ∈ names, P n) :
    preorder pool' mark next met names = preorder pool mark next met names := by
  induction met, names using preorder_induction pool mark next with
  | nil met => rw [preorder_nil, preorder_nil]
  | none met n names hf ih =>
    have hf' := (hp n (h n List.mem_cons_self)).trans hf
    rw [preorder_none hf, preorder_none hf', ih fun k hk => h k (List.mem_cons_of_mem _ hk)]
  | seen met n names a hf hm ih =>
    have hf' := (hp n (h n List.mem_cons_self)).trans hf
    rw [preorder_met hf hm, preorder_met hf' hm, ih fun k hk => h k (List.mem_cons_of_mem _ hk)]
  | new met n names a hf hm ih =>
    have hf' := (hp n (h n List.mem_cons_self)).trans hf
    rw [preorder_new hf hm, preorder_new hf' hm, ih]
    intro k hk
    rcases List.mem_append.mp hk with hk | hk
    · exact hn n a (h n List.mem_cons_self) hf k hk
    · exact h k (List.mem_cons_of_mem _ hk)

end

structure Policy.Reads (p p' : Policy) (asset : PredicateSet) (now : Timestamp) : Prop where
  mrn : p'.mrn = p.mrn
  scoring : p'.scoring = p.scoring
  references : p'.references asset now = p.references asset now

namespace Setting

structure Mirrors (s s' : Setting) (frameworks : List Mrn) : Prop where
  asset : s'.asset = s.asset
  now : s'.now = s.now
  queries : s'.bundle.queries = s.bundle.queries
  riskFactors : s'.bundle.riskFactors = s.bundle.riskFactors
  maps : s'.bundle.maps = s.bundle.maps
  action : s'.overrides.action = s.overrides.action
  magnitude : s'.overrides.magnitude = s.overrides.magnitude
  scoring : s'.overrides.scoring = s.overrides.scoring
  undeclared : ∀ m, s.bundle.policies.find? m = none → s'.bundle.policies.find? m = none
  policies : ∀ m p, s.bundle.policies.find? m = some p →
    ∃ p', s'.bundle.policies.find? m = some p' ∧ p.Reads p' s.asset s.now
  adopts : ∀ f, s'.bundle.Adopts frameworks f ↔ s.bundle.Adopts frameworks f

namespace Mirrors

variable {s s' : Setting} {frameworks : List Mrn} (h : s.Mirrors s' frameworks)
include h

theorem effective : s'.overrides.effective = s.overrides.effective := by
  funext referrer m declared
  rw [Overrides.effective, h.action, Overrides.effective]

theorem query (role : Role) (path : List Mrn) (composite : Option Mrn) (q : Query) (hq : q ∈ s.bundle.queries.entries)
    (hq' : q ∈ s'.bundle.queries.entries) : s'.query role path composite q hq' = s.query role path composite q hq := by
  funext d
  cases hc : q.isComposite with
  | false =>
    cases hk : q.code with
    | none => rw [query_empty hc hk, query_empty hc hk]
    | some c => rw [query_code hc hk, query_code hc hk]
  | true =>
    by_cases hp : q.mrn ∈ path
    · rw [query_cut hc hp, query_cut hc hp]
    · have hstep : s'.variantStep role path q = s.variantStep role path q := by
        funext m d
        by_cases ha : s.overrides.action q.mrn m = .deactivate
        · rw [variantStep_absent ha, variantStep_absent (h.action ▸ ha)]
        · have ha' : s'.overrides.action q.mrn m ≠ .deactivate := h.action ▸ ha
          cases hv : s.bundle.queries.find? m with
          | none => rw [variantStep_undeclared ha hv, variantStep_undeclared ha' (h.queries ▸ hv)]
          | some v =>
            have hv' : s'.bundle.queries.find? m = some v := h.queries ▸ hv
            rw [variantStep_declared ha hv, variantStep_declared ha' hv', h.asset, h.action,
              query role (q.mrn :: path) (some q.mrn) v (Keyed.mem_of_find? hv) (Keyed.mem_of_find? hv')]
      rw [query_composite hc hp, query_composite hc hp, hstep]
termination_by unvisited Query.mrn s.bundle.queries.entries path
decreasing_by exact unvisited_cons_lt hq hp

theorem queryRef (role : Role) (referrer : Mrn) (r : QueryRef) :
    s'.queryRef role referrer r = s.queryRef role referrer r := by
  funext d
  by_cases ha : s.overrides.effective referrer r.mrn r.action = .deactivate
  · rw [queryRef_absent ha, queryRef_absent (h.effective ▸ ha)]
  · have ha' : s'.overrides.effective referrer r.mrn r.action ≠ .deactivate := h.effective ▸ ha
    cases hq : s.bundle.queries.find? r.mrn with
    | none => rw [queryRef_undeclared ha hq, queryRef_undeclared ha' (h.queries ▸ hq)]
    | some q =>
      have hq' : s'.bundle.queries.find? r.mrn = some q := h.queries ▸ hq
      rw [queryRef_declared ha hq, queryRef_declared ha' hq', h.asset, h.effective,
        h.query role [] none q (Keyed.mem_of_find? hq) (Keyed.mem_of_find? hq')]

theorem riskFactorRef (referrer m : Mrn) : s'.riskFactorRef referrer m = s.riskFactorRef referrer m := by
  funext d
  cases hl : d.riskFactors.lookup m with
  | some made => rw [riskFactorRef_settled hl, riskFactorRef_settled hl]
  | none =>
    cases hk : s.bundle.riskFactors.find? m with
    | none => rw [riskFactorRef_undeclared hl hk, riskFactorRef_undeclared hl (h.riskFactors ▸ hk)]
    | some k =>
      have hk' : s'.bundle.riskFactors.find? m = some k := h.riskFactors ▸ hk
      have hlive : s'.isLive k = s.isLive k := by rw [isLive, h.effective, h.asset, isLive]
      have hchecks : s'.queryRef .check k.mrn = s.queryRef .check k.mrn := funext (h.queryRef .check k.mrn)
      have hjob : s'.riskFactorJob k d = s.riskFactorJob k d := by
        simp only [riskFactorJob, hlive, hchecks, h.magnitude]
      rw [riskFactorRef_first hl hk, riskFactorRef_first hl hk', hjob]

theorem policyLinks {p p' : Policy} (hp : p.Reads p' s.asset s.now) {below below' : Mrn → Draft → Bool × Draft}
    (hb : below' = below) : s'.policyLinks below' p' = s.policyLinks below p := by
  have hreferences : p'.references s'.asset s'.now = p.references s.asset s.now := by
    rw [h.asset, h.now, hp.references]
  have hstep : s'.referenceStep below' p' = s.referenceStep below p := by
    funext r d
    cases r with
    | query role r => simp only [referenceStep, hp.mrn, h.queryRef]
    | riskFactor m => simp only [referenceStep, hp.mrn, h.riskFactorRef]
    | policy r => simp only [referenceStep, hp.mrn, h.effective, hb]
  rw [policyLinks_eq, policyLinks_eq, hreferences, hstep]

theorem policyScoring {p p' : Policy} (hp : p.Reads p' s.asset s.now) : s'.policyScoring p' = s.policyScoring p := by
  rw [Setting.policyScoring, h.scoring, hp.mrn, hp.scoring, Setting.policyScoring]

theorem policy (path : List Mrn) (referrer m : Mrn) : s'.policy path referrer m = s.policy path referrer m := by
  funext d
  cases hl : d.policies.lookup m with
  | some made => rw [policy_settled hl, policy_settled hl]
  | none =>
    by_cases hm : m ∈ path
    · rw [policy_cut hl hm, policy_cut hl hm]
    · cases hf : s.bundle.policies.find? m with
      | none => rw [policy_undeclared hl hm hf, policy_undeclared hl hm (h.undeclared m hf)]
      | some p =>
        obtain ⟨p', hf', hp⟩ := h.policies m p hf
        obtain rfl := Keyed.key_of_find? hf
        have hbelow : s'.policy (p.mrn :: path) p'.mrn = s.policy (p.mrn :: path) p.mrn := by
          rw [hp.mrn]
          exact funext fun n => policy (p.mrn :: path) p.mrn n
        rw [policy_first hl hm hf, policy_first hl hm hf', h.policyLinks hp hbelow, h.policyScoring hp]
termination_by unvisited Policy.mrn s.bundle.policies.entries path
decreasing_by exact unvisited_cons_lt (Keyed.mem_of_find? hf) hm

theorem draftPolicy {p p' : Policy} (hp : p.Reads p' s.asset s.now) : s'.draftPolicy p' = s.draftPolicy p := by
  have hlinks : s'.policyLinks (s'.policy [p'.mrn] p'.mrn) p' = s.policyLinks (s.policy [p.mrn] p.mrn) p := by
    apply h.policyLinks hp
    rw [hp.mrn]
    exact funext fun n => h.policy [p.mrn] p.mrn n
  unfold Setting.draftPolicy
  rw [hlinks, hp.mrn, hp.scoring]

def Meets (s : Setting) (frameworks : List Mrn) (m : Mrn) : Prop :=
  m ∈ frameworks ∨ ∃ f, s.bundle.Adopts frameworks f ∧ m ∈ f.heeded

omit h in
theorem adopts_of_meets {m : Mrn} {f : Framework} (hm : Meets s frameworks m) (hf : s.bundle.frameworks.find? m = some f) :
    s.bundle.Adopts frameworks f := by
  rcases hm with hm | ⟨g, hg, hm⟩
  · exact .assigned hm hf
  · obtain ⟨r, hr, ha, rfl⟩ := Framework.mem_heeded.mp hm
    exact .dependency hg hr ha hf

theorem framework_find? {m : Mrn} (hm : Meets s frameworks m) :
    s'.bundle.frameworks.find? m = s.bundle.frameworks.find? m := by
  have hm' : Meets s' frameworks m := hm.imp id fun ⟨f, hf, hmem⟩ => ⟨f, (h.adopts f).mpr hf, hmem⟩
  apply Option.ext
  intro f
  constructor
  · intro hf
    have hk := Keyed.key_of_find? hf
    exact hk ▸ ((h.adopts f).mp (adopts_of_meets hm' hf)).declared
  · intro hf
    have hk := Keyed.key_of_find? hf
    exact hk ▸ ((h.adopts f).mpr (adopts_of_meets hm hf)).declared

theorem discovered : s'.discovered frameworks = s.discovered frameworks := by
  refine preorder_pool (P := Meets s frameworks) (fun n hn => h.framework_find? hn) (fun n f hn hf k hk => ?_)
    fun n hn => .inl hn
  exact .inr ⟨f, adopts_of_meets hn hf, hk⟩

theorem framework (c : ControlScope) (path : List Mrn) {m : Mrn} (hm : Meets s frameworks m) :
    s'.framework c path m = s.framework c path m := by
  funext d
  cases hl : d.frameworks.lookup m with
  | some made => rw [framework_settled hl, framework_settled hl]
  | none =>
    by_cases hp : m ∈ path
    · rw [framework_cut hl hp, framework_cut hl hp]
    · have hfind := h.framework_find? hm
      cases hf : s.bundle.frameworks.find? m with
      | none => rw [framework_undeclared hl hp hf, framework_undeclared hl hp (hfind.trans hf)]
      | some f =>
        obtain rfl := Keyed.key_of_find? hf
        have hadopts := adopts_of_meets hm hf
        have hstep : ∀ r ∈ f.dependencies, dependencyStep (s'.framework c (f.mrn :: path)) r =
            dependencyStep (s.framework c (f.mrn :: path)) r := by
          intro r hr
          funext d
          simp only [dependencyStep, Action.activation_eq_absent]
          by_cases ha : r.action = .deactivate
          · simp only [ha, ↓reduceIte]
          · have hmeets : Meets s frameworks r.mrn := .inr ⟨f, hadopts, Framework.mem_heeded.mpr ⟨r, hr, ha, rfl⟩⟩
            simp only [ha, ↓reduceIte]
            rw [framework c (f.mrn :: path) hmeets]
        rw [framework_first hl hp hf, framework_first hl hp (hfind.trans hf), gather_congr hstep, h.now]
termination_by unvisited Framework.mrn s.bundle.frameworks.entries path
decreasing_by exact unvisited_cons_lt (Keyed.mem_of_find? hf) hp

theorem addFrameworks (root : Identity) (d : Draft) :
    s'.addFrameworks root frameworks d = s.addFrameworks root frameworks d := by
  have hscope : s'.scopeOf frameworks d = s.scopeOf frameworks d := by
    simp only [scopeOf, h.discovered, candidateMaps, h.maps, controlScope, h.now]
  have hevents : s'.frameworkEvents frameworks d = s.frameworkEvents frameworks d := by
    simp only [frameworkEvents, h.discovered, candidateMaps, h.maps]
  rw [addFrameworks_eq, addFrameworks_eq, hscope, hevents]
  apply List.foldl_ext
  intro d m hm
  simp only [adopt, h.framework _ [] (.inl hm)]

theorem draftAsset (asset : Mrn) (policies : List Mrn) :
    s'.draftAsset asset policies frameworks = s.draftAsset asset policies frameworks := by
  have hassign : s'.assign asset = s.assign asset := by
    funext d m
    unfold assign
    rw [h.policy [] asset m]
  unfold Setting.draftAsset
  rw [hassign, h.addFrameworks]

end Mirrors

end Setting

def Target.frameworks : Target → List Mrn
  | .policy _ => []
  | .asset _ _ frameworks => frameworks

namespace Bundle

variable {b b' : Bundle} {r : Request}

theorem isDeclared_of_mirrors (h : (b.setting r).Mirrors (b'.setting r) r.target.frameworks) :
    b'.isDeclared = b.isDeclared := by
  funext m
  rw [isDeclared, Keyed.has, isDeclared, Keyed.has]
  cases hf : b.policies.find? m with
  | none =>
    have hf' : b'.policies.find? m = none := h.undeclared m hf
    rw [hf']
  | some p =>
    obtain ⟨p', hf', -⟩ := h.policies m p hf
    have hf' : b'.policies.find? m = some p' := hf'
    rw [hf']
    rfl

theorem draft_of_mirrors (h : (b.setting r).Mirrors (b'.setting r) r.target.frameworks) : b'.draft r = b.draft r := by
  have hdeclared := isDeclared_of_mirrors h
  unfold draft
  cases ht : r.target with
  | policy m =>
    cases hf : b.policies.find? m with
    | none =>
      have hf' : b'.policies.find? m = none := h.undeclared m hf
      simp only [hf, hf']
    | some p =>
      obtain ⟨p', hf', hp⟩ := h.policies m p hf
      have hf' : b'.policies.find? m = some p' := hf'
      simp only [hf, hf', h.draftPolicy hp]
  | asset asset policies frameworks =>
    rw [ht] at h
    have hd : (b'.setting r).draftAsset asset (policies.filter b.isDeclared) frameworks =
        (b.setting r).draftAsset asset (policies.filter b.isDeclared) frameworks := h.draftAsset _ _
    simp only [hdeclared, hd]

theorem resolve_of_mirrors (h : (b.setting r).Mirrors (b'.setting r) r.target.frameworks)
    (hs : b'.scope r.target.assigned = b.scope r.target.assigned) : b'.resolve r = b.resolve r := by
  have hcheck : b'.checkScope r = b.checkScope r := by
    unfold checkScope
    rw [isDeclared_of_mirrors h, hs]
  have hfinish : b'.finish r = b.finish r := by
    have hqueries : b'.queries = b.queries := h.queries
    funext scope root d
    simp only [finish, executionJob_congr hqueries]
  simp only [resolve, run, hcheck, draft_of_mirrors h, hfinish]
  cases b.checkScope r with
  | error e => rfl
  | ok scope =>
    cases b.draft r with
    | error e => rfl
    | ok drawn => rfl

end Bundle

end Compliance
