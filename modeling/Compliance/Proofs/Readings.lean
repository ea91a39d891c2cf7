import Compliance.Proofs.Depths
import Compliance.Proofs.Ledger

namespace Compliance

namespace Setting

variable (s : Setting) (roots : List Mrn)

abbrev forAsset (asset : PredicateSet) : Setting := { s with asset := asset }

def Tries (q v : Query) : Prop :=
  ∃ m ∈ q.variants, s.overrides.action q.mrn m ≠ .deactivate ∧ s.bundle.queries.find? m = some v

def Enters (q v : Query) : Prop := s.Tries q v ∧ s.asset.meets v.required = true

/-- A query that a walked policy or a live risk factor refers to. -/
inductive Sought : Query → Prop
  | policy {p : Policy} {g : PolicyGroup} {role : Role} {r : QueryRef} {q : Query} :
    s.Walked roots p → g ∈ p.contentGroups s.asset s.now → r ∈ g.asked role →
      s.overrides.effective p.mrn r.mrn r.action ≠ .deactivate → s.bundle.queries.find? r.mrn = some q → Sought q
  | riskFactor {p : Policy} {f : RiskFactorRef} {k : RiskFactor} {r : QueryRef} {q : Query} :
    s.Walked roots p → f ∈ p.riskReferences s.asset s.now → s.bundle.riskFactors.find? f.mrn = some k →
      s.isLive k = true → r ∈ k.checks → s.overrides.effective k.mrn r.mrn r.action ≠ .deactivate →
        s.bundle.queries.find? r.mrn = some q → Sought q

inductive Reads : List PredicateId → Prop
  | group {p : Policy} {g : PolicyGroup} : s.Walked roots p → g ∈ p.groups → g.inForce s.now = true → Reads g.required
  | riskFactor {p : Policy} {f : RiskFactorRef} {k : RiskFactor} : s.Walked roots p →
    f ∈ p.riskReferences s.asset s.now → s.bundle.riskFactors.find? f.mrn = some k → Reads k.required
  | query {q : Query} : s.Sought roots q → Reads q.required
  | variant {q e v : Query} : s.Sought roots q → s.asset.meets q.required = true →
    Relation.ReflTransGen s.Enters q e → s.Tries e v → Reads v.required

variable {s roots} {asset : PredicateSet} {p : Policy} {m : Mrn} {c : ControlScope}

def Answers (s : Setting) (roots : List Mrn) (asset : PredicateSet) : Prop :=
  ∀ required, s.Reads roots required → asset.meets required = s.asset.meets required

theorem Answers.applicable (h : s.Answers roots asset) (hp : s.Walked roots p) :
    p.applicable asset s.now = p.applicable s.asset s.now := by
  apply List.filter_congr
  intro g hg
  unfold PolicyGroup.applies
  cases hf : g.inForce s.now with
  | false => rfl
  | true => rw [h _ (.group hp hg hf)]

theorem Answers.contentGroups (h : s.Answers roots asset) (hp : s.Walked roots p) :
    p.contentGroups asset s.now = p.contentGroups s.asset s.now := by
  rw [Policy.contentGroups, h.applicable hp, Policy.contentGroups]

theorem Answers.modifierGroups (h : s.Answers roots asset) (hp : s.Walked roots p) :
    p.modifierGroups asset s.now = p.modifierGroups s.asset s.now := by
  rw [Policy.modifierGroups, h.applicable hp, Policy.modifierGroups]

theorem Answers.layer (h : s.Answers roots asset) (hp : s.Walked roots p) (depth : Nat) :
    p.layer asset s.now depth = p.layer s.asset s.now depth := by
  rw [Policy.layer, h.contentGroups hp, h.modifierGroups hp, Policy.layer]

theorem Answers.references (h : s.Answers roots asset) (hp : s.Walked roots p) :
    p.references asset s.now = p.references s.asset s.now := by
  rw [Policy.references, h.contentGroups hp, Policy.references]

theorem Answers.addLevel (h : s.Answers roots asset) {level : List Policy} (hl : ∀ p ∈ level, s.Walked roots p)
    (depth : Nat) (o : Overrides) : o.addLevel asset s.now level depth = o.addLevel s.asset s.now level depth := by
  rw [Overrides.addLevel, Overrides.addLevel, List.map_congr_left fun p hp => h.layer (hl p hp) depth]

theorem Answers.leads (h : s.Answers roots asset) {level : List Policy} (hl : ∀ p ∈ level, s.Walked roots p)
    (o : Overrides) (m : Mrn) :
    (level.any fun p => o.leads asset s.now p m) = level.any fun p => o.leads s.asset s.now p m := by
  rw [Bool.eq_iff_iff, List.any_eq_true, List.any_eq_true]
  apply exists_congr
  intro p
  apply and_congr_right
  intro hp
  rw [Overrides.leads, h.contentGroups (hl p hp), Overrides.leads]

theorem Answers.grow (hs : s.Collected roots) (h : s.Answers roots asset) {pool level : List Policy} {depth : Nat}
    {o : Overrides} (hst : Overrides.Stage s.bundle s.asset s.now roots pool level depth o) :
    Overrides.grow asset s.now pool level depth o = Overrides.grow s.asset s.now pool level depth o := by
  have hl : ∀ p ∈ level, s.Walked roots p := fun p hp =>
    walked_iff_exists_chain.mpr ⟨depth, (((levelled hs hst).level p).mp hp).1⟩
  have hadd := h.addLevel hl depth o
  have hreached : (o.addLevel s.asset s.now level depth).reached asset s.now level pool =
      (o.addLevel s.asset s.now level depth).reached s.asset s.now level pool :=
    List.filter_congr fun q _ => h.leads hl _ q.mrn
  have hunreached : (o.addLevel s.asset s.now level depth).unreached asset s.now level pool =
      (o.addLevel s.asset s.now level depth).unreached s.asset s.now level pool :=
    List.filter_congr fun q _ => congrArg _ (h.leads hl _ q.mrn)
  by_cases hr : (o.addLevel s.asset s.now level depth).reached s.asset s.now level pool = []
  · rw [Overrides.grow_last hr, Overrides.grow_last (by rw [hadd, hreached, hr]), hadd]
  · have hlt := Overrides.length_unreached_lt _ hr
    rw [Overrides.grow_next hr, Overrides.grow_next (by rw [hadd, hreached]; exact hr), hadd, hreached, hunreached]
    exact Answers.grow hs h (.next hst hr)
termination_by pool.length

theorem Answers.collect (hs : s.Collected roots) (h : s.Answers roots asset) :
    Overrides.collect s.bundle asset s.now roots = s.overrides := by
  rw [hs]
  exact h.grow hs .start

theorem query_congr (role : Role) (path : List Mrn) (composite : Option Mrn) (q : Query) (hq : q ∈ s.bundle.queries.entries)
    (h : ∀ e v, Relation.ReflTransGen s.Enters q e → s.Tries e v → asset.meets v.required = s.asset.meets v.required) :
    (s.forAsset asset).query role path composite q hq = s.query role path composite q hq := by
  funext d
  cases hc : q.isComposite with
  | false =>
    cases hk : q.code with
    | none => rw [query_empty (s := s.forAsset asset) hc hk, query_empty hc hk]
    | some c => rw [query_code (s := s.forAsset asset) hc hk, query_code hc hk]
  | true =>
    by_cases hp : q.mrn ∈ path
    · rw [query_cut (s := s.forAsset asset) hc hp, query_cut hc hp]
    · have hstep : ∀ m ∈ q.variants,
          (s.forAsset asset).variantStep role path q m = s.variantStep role path q m := by
        intro m hm
        funext d
        by_cases ha : s.overrides.action q.mrn m = .deactivate
        · rw [variantStep_absent (s := s.forAsset asset) ha, variantStep_absent ha]
        · cases hv : s.bundle.queries.find? m with
          | none => rw [variantStep_undeclared (s := s.forAsset asset) ha hv, variantStep_undeclared ha hv]
          | some v =>
            have ht : s.Tries q v := ⟨m, hm, ha, hv⟩
            rw [variantStep_declared (s := s.forAsset asset) ha hv, variantStep_declared ha hv, h q v .refl ht]
            split
            · rename_i hmet
              rw [query_congr role (q.mrn :: path) (some q.mrn) v (Keyed.mem_of_find? hv)
                fun e w he hw => h e w (.head ⟨ht, hmet⟩ he) hw]
            · rfl
      rw [query_composite (s := s.forAsset asset) hc hp, query_composite hc hp, gather_congr hstep]
termination_by unvisited Query.mrn s.bundle.queries.entries path
decreasing_by exact unvisited_cons_lt hq hp

theorem Answers.queryRef (h : s.Answers roots asset) (role : Role) {referrer : Mrn} {r : QueryRef}
    (hq : ∀ q, s.overrides.effective referrer r.mrn r.action ≠ .deactivate → s.bundle.queries.find? r.mrn = some q →
      s.Sought roots q) :
    (s.forAsset asset).queryRef role referrer r = s.queryRef role referrer r := by
  funext d
  by_cases ha : s.overrides.effective referrer r.mrn r.action = .deactivate
  · rw [queryRef_absent (s := s.forAsset asset) ha, queryRef_absent ha]
  · cases hf : s.bundle.queries.find? r.mrn with
    | none => rw [queryRef_undeclared (s := s.forAsset asset) ha hf, queryRef_undeclared ha hf]
    | some q =>
      have hs := hq q ha hf
      rw [queryRef_declared (s := s.forAsset asset) ha hf, queryRef_declared ha hf]
      simp only [h _ (.query hs)]
      split
      · rename_i hmet
        rw [query_congr role [] none q (Keyed.mem_of_find? hf) fun e v he hv => h _ (.variant hs hmet he hv)]
      · rfl

theorem Answers.riskFactorRef (h : s.Answers roots asset) (hp : s.Walked roots p) {f : RiskFactorRef}
    (hf : f ∈ p.riskReferences s.asset s.now) :
    (s.forAsset asset).riskFactorRef p.mrn f.mrn = s.riskFactorRef p.mrn f.mrn := by
  funext d
  cases hl : d.riskFactors.lookup f.mrn with
  | some made => rw [riskFactorRef_settled (s := s.forAsset asset) hl, riskFactorRef_settled hl]
  | none =>
    cases hk : s.bundle.riskFactors.find? f.mrn with
    | none => rw [riskFactorRef_undeclared (s := s.forAsset asset) hl hk, riskFactorRef_undeclared hl hk]
    | some k =>
      have hlive : (s.forAsset asset).isLive k = s.isLive k := by
        simp only [Setting.isLive, h _ (.riskFactor hp hf hk)]
      have hjob : (s.forAsset asset).riskFactorJob k d = s.riskFactorJob k d := by
        simp only [riskFactorJob, hlive]
        split
        · rename_i hl
          rw [gather_congr fun r hr => h.queryRef .check fun q ha hq => .riskFactor hp hf hk hl hr ha hq]
        · rfl
      rw [riskFactorRef_first (s := s.forAsset asset) hl hk, riskFactorRef_first hl hk, hjob]

theorem Answers.policyLinks (h : s.Answers roots asset) (hp : s.Walked roots p) {below below' : Mrn → Draft → Bool × Draft}
    (hb : ∀ n, (∀ q, s.bundle.policies.find? n = some q → s.Walked roots q) → below n = below' n) :
    (s.forAsset asset).policyLinks below p = s.policyLinks below' p := by
  rw [policyLinks_eq, policyLinks_eq]
  simp only [h.references hp]
  apply gather_congr
  intro r hr
  cases r with
  | query role r =>
    obtain ⟨g, hg, hr⟩ := Policy.mem_references_query.mp hr
    exact h.queryRef role fun q ha hq => .policy hp hg hr ha hq
  | riskFactor m =>
    obtain ⟨f, hf, rfl⟩ := Policy.mem_references_riskFactor.mp hr
    exact h.riskFactorRef hp hf
  | policy r =>
    obtain ⟨g, hg, hr⟩ := Policy.mem_references_policy.mp hr
    funext d
    simp only [referenceStep, Action.activation_eq_absent]
    by_cases ha : s.overrides.effective p.mrn r.mrn r.action = .deactivate
    · simp only [ha, ↓reduceIte]
    · simp only [ha, ↓reduceIte]
      rw [hb r.mrn fun q hq => .included hp ⟨g, hg, r, hr, ha, hq⟩]

theorem Answers.policy (h : s.Answers roots asset) (path : List Mrn) (referrer m : Mrn)
    (hw : ∀ p, s.bundle.policies.find? m = some p → s.Walked roots p) :
    (s.forAsset asset).policy path referrer m = s.policy path referrer m := by
  funext d
  cases hl : d.policies.lookup m with
  | some made => rw [policy_settled (s := s.forAsset asset) hl, policy_settled hl]
  | none =>
    by_cases hm : m ∈ path
    · rw [policy_cut (s := s.forAsset asset) hl hm, policy_cut hl hm]
    · cases hf : s.bundle.policies.find? m with
      | none => rw [policy_undeclared (s := s.forAsset asset) hl hm hf, policy_undeclared hl hm hf]
      | some p =>
        obtain rfl := Keyed.key_of_find? hf
        rw [policy_first (s := s.forAsset asset) hl hm hf, policy_first hl hm hf,
          h.policyLinks (hw p hf) fun n hn => Answers.policy h (p.mrn :: path) p.mrn n hn]
        rfl
termination_by unvisited Policy.mrn s.bundle.policies.entries path
decreasing_by exact unvisited_cons_lt (Keyed.mem_of_find? hf) hm

theorem framework_congr (path : List Mrn) (m : Mrn) :
    (s.forAsset asset).framework c path m = s.framework c path m := by
  funext d
  cases hl : d.frameworks.lookup m with
  | some made => rw [framework_settled (s := s.forAsset asset) hl, framework_settled hl]
  | none =>
    by_cases hm : m ∈ path
    · rw [framework_cut (s := s.forAsset asset) hl hm, framework_cut hl hm]
    · cases hf : s.bundle.frameworks.find? m with
      | none => rw [framework_undeclared (s := s.forAsset asset) hl hm hf, framework_undeclared hl hm hf]
      | some f =>
        obtain rfl := Keyed.key_of_find? hf
        have hbelow : (s.forAsset asset).framework c (f.mrn :: path) = s.framework c (f.mrn :: path) :=
          funext fun n => framework_congr (f.mrn :: path) n
        rw [framework_first (s := s.forAsset asset) hl hm hf, framework_first hl hm hf, hbelow]
termination_by unvisited Framework.mrn s.bundle.frameworks.entries path
decreasing_by exact unvisited_cons_lt (Keyed.mem_of_find? hf) hm

theorem addFrameworks_congr (root : Identity) (assigned : List Mrn) (d : Draft) :
    (s.forAsset asset).addFrameworks root assigned d = s.addFrameworks root assigned d := by
  have hadopt : ∀ c, (s.forAsset asset).adopt root c = s.adopt root c := by
    intro c
    funext d m
    simp only [adopt, framework_congr]
  simp only [addFrameworks, hadopt]
  rfl

theorem Answers.draftPolicy (h : s.Answers [p.mrn] asset) (hp : s.bundle.policies.find? p.mrn = some p) :
    (s.forAsset asset).draftPolicy p = s.draftPolicy p := by
  have hl : (s.forAsset asset).policyLinks ((s.forAsset asset).policy [p.mrn] p.mrn) p =
      s.policyLinks (s.policy [p.mrn] p.mrn) p :=
    h.policyLinks (.root List.mem_cons_self hp) fun n hn => h.policy [p.mrn] p.mrn n hn
  unfold Setting.draftPolicy
  rw [hl]

theorem Answers.draftAsset (h : s.Answers roots asset) (a : Mrn) {policies : List Mrn} (frameworks : List Mrn)
    (hp : ∀ m ∈ policies, m ∈ roots) :
    (s.forAsset asset).draftAsset a policies frameworks = s.draftAsset a policies frameworks := by
  have hassign : ∀ d, ∀ m ∈ policies, (s.forAsset asset).assign a d m = s.assign a d m := by
    intro d m hm
    unfold assign
    rw [h.policy [] a m fun p hp' => .root (hp m hm) hp']
  unfold Setting.draftAsset
  rw [List.foldl_ext _ _ _ hassign, addFrameworks_congr]

end Setting

theorem Bundle.draft_congr {b : Bundle} {r : Request} {asset : PredicateSet}
    (h : (b.setting r).Answers r.target.assigned asset) : b.draft { r with asset := asset } = b.draft r := by
  have hs : b.setting { r with asset := asset } = (b.setting r).forAsset asset := by
    have ho : Overrides.collect b asset r.now r.target.assigned = (b.setting r).overrides :=
      h.collect (b.setting_collected r)
    simp only [setting, Setting.forAsset, ho]
  unfold draft
  rw [hs]
  cases ht : r.target with
  | policy m =>
    simp only
    cases hp : b.policies.find? m with
    | none => rfl
    | some p =>
      obtain rfl := Keyed.key_of_find? hp
      rw [ht] at h
      simp only [h.draftPolicy hp]
  | asset a policies frameworks =>
    rw [ht] at h
    simp only
    rw [h.draftAsset a frameworks fun m (hm : m ∈ policies.filter b.isDeclared) => List.mem_of_mem_filter hm]

end Compliance
