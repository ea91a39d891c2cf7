import Compliance.Proofs.Depths
import Compliance.Proofs.Preorder

namespace Compliance

section

variable {α κ : Type} [DecidableEq κ] {name : α → String} {f : α → α} {mark : α → κ} {next : α → List String}

theorem preorder_prune {keep : String → Bool} (hf : ∀ a, name (f a) = name a) (hm : ∀ a, mark (f a) = mark a)
    {next' : α → List String} (hn : ∀ a, next' (f a) = (next a).filter keep) {pool : Keyed name}
    (hk : ∀ n, keep n = false → pool.find? n = none) (met : List κ) (names : List String) :
    preorder (pool.map f hf) mark next' met (names.filter keep) =
      ((preorder pool mark next met names).filter (keep ·.1)).map fun x => (x.1, x.2.map f) := by
  induction met, names using preorder_induction pool mark next with
  | nil met => rw [List.filter_nil, preorder_nil, preorder_nil, List.filter_nil, List.map_nil]
  | none met n names h ih =>
    have h' : (pool.map f hf).find? n = none := by rw [Keyed.find?_map, h, Option.map_none]
    simp only [preorder_none h, List.filter_cons]
    split
    · rw [preorder_none h', ih, List.map_cons, Option.map_none]
    · exact ih
  | seen met n names a h hmet ih =>
    have hkeep : keep n = true := Bool.not_eq_false _ ▸ fun hfalse => Option.some_ne_none a (h.symm.trans (hk n hfalse))
    have h' : (pool.map f hf).find? n = some (f a) := by rw [Keyed.find?_map, h, Option.map_some]
    rw [preorder_met h hmet, List.filter_cons_of_pos hkeep, preorder_met h' (by rwa [hm]), ih]
  | new met n names a h hmet ih =>
    have hkeep : keep n = true := Bool.not_eq_false _ ▸ fun hfalse => Option.some_ne_none a (h.symm.trans (hk n hfalse))
    have h' : (pool.map f hf).find? n = some (f a) := by rw [Keyed.find?_map, h, Option.map_some]
    simp only [preorder_new h hmet, List.filter_cons, hkeep, ↓reduceIte]
    rw [preorder_new h' (by rwa [hm]), hm, hn, ← List.filter_append, ih, List.map_cons, Option.map_some]

theorem filterMap_preorder_prune {keep : String → Bool} (hf : ∀ a, name (f a) = name a) (hm : ∀ a, mark (f a) = mark a)
    {next' : α → List String} (hn : ∀ a, next' (f a) = (next a).filter keep) {pool : Keyed name}
    (hk : ∀ n, keep n = false → pool.find? n = none) (met : List κ) (names : List String) :
    (preorder (pool.map f hf) mark next' met (names.filter keep)).filterMap (·.2) =
      ((preorder pool mark next met names).filterMap (·.2)).map f := by
  rw [preorder_prune hf hm hn hk, List.filterMap_map, List.filterMap_filter, List.map_filterMap]
  refine List.filterMap_congr fun x hx => ?_
  obtain ⟨n, a⟩ := x
  cases hkeep : keep n with
  | true => rfl
  | false =>
    cases a with
    | none => rfl
    | some a => exact absurd ((find?_of_mem_preorder hx).symm.trans (hk n hkeep)) (Option.some_ne_none a)

theorem preorder_map (hf : ∀ a, name (f a) = name a) (hm : ∀ a, mark (f a) = mark a) {next' : α → List String}
    (hn : ∀ a, next' (f a) = next a) (pool : Keyed name) (met : List κ) (names : List String) :
    preorder (pool.map f hf) mark next' met names =
      (preorder pool mark next met names).map fun x => (x.1, x.2.map f) := by
  have hnext : ∀ a, next' (f a) = (next a).filter fun _ => true := by simp [hn]
  have hkeep : ∀ n, (fun _ : String => true) n = false → pool.find? n = none := by simp
  simpa using preorder_prune hf hm hnext hkeep met names

end

structure Revision where
  owner : Mrn → Mrn := id
  policy : Policy → Policy := id
  framework : Framework → Framework := id
  map : FrameworkMap → FrameworkMap := id
  query : Query → Query := id
  riskFactor : RiskFactor → RiskFactor := id
  policy_mrn : ∀ p, (policy p).mrn = p.mrn := by intro; rfl
  framework_mrn : ∀ f, (framework f).mrn = f.mrn := by intro; rfl
  query_mrn : ∀ q, (query q).mrn = q.mrn := by intro; rfl
  riskFactor_mrn : ∀ k, (riskFactor k).mrn = k.mrn := by intro; rfl

def Bundle.revise (b : Bundle) (v : Revision) : Bundle where
  owner := v.owner b.owner
  policies := b.policies.map v.policy v.policy_mrn
  frameworks := b.frameworks.map v.framework v.framework_mrn
  maps := b.maps.map v.map
  queries := b.queries.map v.query v.query_mrn
  riskFactors := b.riskFactors.map v.riskFactor v.riskFactor_mrn

def Overrides.map (φ : Layer → Layer) (o : Overrides) : Overrides := ⟨o.layers.map φ⟩

structure Revision.Keeps (v : Revision) (asset : PredicateSet) (now : Timestamp) (φ : Layer → Layer) : Prop where
  references : ∀ p, (v.policy p).references asset now = p.references asset now
  layer : ∀ p depth, (v.policy p).layer asset now depth = φ (p.layer asset now depth)
  depth : ∀ l, (φ l).depth = l.depth
  owner : ∀ l, (φ l).owner = l.owner
  said : ∀ l m, (φ l).says? m = l.says? m

namespace Overrides

variable {o : Overrides} {asset : PredicateSet} {now : Timestamp}

theorem leads_eq_references (p : Policy) (m : Mrn) : o.leads asset now p m = (p.references asset now).any fun
    | .policy r => r.mrn == m && o.effective p.mrn m r.action != .deactivate
    | _ => false := by
  have hnone : ∀ {α : Type} (l : List α), (l.any fun _ => false) = false := by
    intro α l
    exact List.any_eq_false.mpr fun _ _ => Bool.false_ne_true
  simp [leads, Policy.references, PolicyGroup.references, List.any_flatMap, Function.comp_def, hnone]

theorem leads_congr {o' : Overrides} {p p' : Policy} (hm : p'.mrn = p.mrn)
    (hr : p'.references asset now = p.references asset now) (ha : o'.action = o.action) (m : Mrn) :
    o'.leads asset now p' m = o.leads asset now p m := by
  simp only [leads_eq_references, effective, hr, ha, hm]

structure Follows (asset : PredicateSet) (now : Timestamp) (f : Policy → Policy) (R : Overrides → Overrides → Prop)
    (known : Mrn → Prop) (P : Policy → Prop) : Prop where
  mrn : ∀ p, (f p).mrn = p.mrn
  leads : ∀ {o o'}, R o o' → ∀ p m, known m → o'.leads asset now (f p) m = o.leads asset now p m
  addLevel : ∀ {o o'} level depth, (∀ p ∈ level, P p) → R o o' →
    R (o.addLevel asset now level depth) (o'.addLevel asset now (level.map f) depth)

namespace Follows

variable {f : Policy → Policy} {R : Overrides → Overrides → Prop} {known : Mrn → Prop} {P : Policy → Prop} {o o' : Overrides}
  {pool level : List Policy} (h : Follows asset now f R known P)
include h

theorem any_leads (hr : R o o') (level : List Policy) {q : Policy} (hq : known q.mrn) :
    ((level.map f).any fun p => o'.leads asset now p (f q).mrn) = level.any fun p => o.leads asset now p q.mrn := by
  simp only [List.any_map, Function.comp_def, h.mrn, h.leads hr _ _ hq]

theorem reached (hr : R o o') (level : List Policy) (hk : ∀ q ∈ pool, known q.mrn) :
    o'.reached asset now (level.map f) (pool.map f) = (o.reached asset now level pool).map f := by
  rw [Overrides.reached, List.filter_map, Overrides.reached]
  exact congrArg _ (List.filter_congr fun q hq => h.any_leads hr level (hk q hq))

theorem unreached (hr : R o o') (level : List Policy) (hk : ∀ q ∈ pool, known q.mrn) :
    o'.unreached asset now (level.map f) (pool.map f) = (o.unreached asset now level pool).map f := by
  rw [Overrides.unreached, List.filter_map, Overrides.unreached]
  exact congrArg _ (List.filter_congr fun q hq => congrArg _ (h.any_leads hr level (hk q hq)))

theorem grow (pool level : List Policy) (depth : Nat) (o o' : Overrides) (hk : ∀ q ∈ pool, known q.mrn)
    (hP : ∀ p, p ∈ pool ∨ p ∈ level → p.mrn ∈ (Overrides.grow asset now pool level depth o).layers.map (·.owner) → P p)
    (hr : R o o') :
    R (Overrides.grow asset now pool level depth o) (Overrides.grow asset now (pool.map f) (level.map f) depth o') := by
  have hlevel : ∀ p ∈ level, P p := by
    intro p hp
    obtain ⟨later, hlayers, -⟩ := grow_layers asset now pool level depth o
    refine hP p (.inr hp) (List.mem_map.mpr ⟨p.layer asset now depth, ?_, rfl⟩)
    rw [hlayers]
    exact List.mem_append_left _ (mem_addLevel.mpr (.inr ⟨p, hp, rfl⟩))
  have hadd := h.addLevel level depth hlevel hr
  have hreached := h.reached hadd level hk
  by_cases hn : (o.addLevel asset now level depth).reached asset now level pool = []
  · have hn' : (o'.addLevel asset now (level.map f) depth).reached asset now (level.map f) (pool.map f) = [] := by
      rw [hreached, hn, List.map_nil]
    rwa [grow_last hn, grow_last hn']
  · have hn' : (o'.addLevel asset now (level.map f) depth).reached asset now (level.map f) (pool.map f) ≠ [] := by
      rwa [hreached, ne_eq, List.map_eq_nil_iff]
    have hlt := length_unreached_lt _ hn
    rw [grow_next hn] at hP
    rw [grow_next hn, grow_next hn', hreached, h.unreached hadd level hk]
    refine grow _ _ (depth + 1) _ _ (fun q hq => hk q (List.mem_filter.mp hq).1) (fun p hp => hP p (.inl ?_)) hadd
    rcases hp with hp | hp
    · exact (List.mem_filter.mp hp).1
    · exact (List.mem_filter.mp hp).1
termination_by pool.length

theorem collect (b : Bundle) {assigned assigned' : List Mrn} (hk : ∀ p ∈ b.policies.entries, known p.mrn)
    (ha : ∀ m, known m → (m ∈ assigned' ↔ m ∈ assigned))
    (hP : ∀ p ∈ b.policies.entries, p.mrn ∈ (Overrides.collect b asset now assigned).layers.map (·.owner) → P p)
    (hr : R {} {})
    {b' : Bundle} (hb : b'.policies.entries = b.policies.entries.map f) :
    R (Overrides.collect b asset now assigned) (Overrides.collect b' asset now assigned') := by
  have hfilter : ∀ g : Bool → Bool, b'.policies.entries.filter (fun p => g (assigned'.contains p.mrn)) =
      (b.policies.entries.filter fun p => g (assigned.contains p.mrn)).map f := by
    intro g
    rw [hb, List.filter_map]
    refine congrArg _ (List.filter_congr fun p hp => congrArg g ?_)
    rw [Bool.eq_iff_iff, h.mrn, List.contains_iff_mem, List.contains_iff_mem, ha p.mrn (hk p hp)]
  have hroots := hfilter id
  simp only [id_eq] at hroots
  rw [Overrides.collect, Overrides.collect, hroots, hfilter (!·)]
  refine h.grow _ _ 0 _ _ (fun q hq => hk q (List.mem_filter.mp hq).1) (fun p hp => hP p ?_) hr
  rcases hp with hp | hp
  · exact (List.mem_filter.mp hp).1
  · exact (List.mem_filter.mp hp).1

end Follows

end Overrides

theorem Overrides.action_map {φ : Layer → Layer} (hd : ∀ l, (φ l).depth = l.depth) (ho : ∀ l, (φ l).owner = l.owner)
    {m : Mrn} (hs : ∀ l, (φ l).says? m = l.says? m) (o : Overrides) (referrer : Mrn) :
    (o.map φ).action referrer m = o.action referrer m := by
  have hdepth : (o.map φ).depth? referrer = o.depth? referrer := by
    simp [Overrides.depth?, Overrides.map, List.find?_map, Function.comp_def, ho, hd]
  have hsees : (o.map φ).sees referrer ∘ φ = o.sees referrer := by
    funext l
    simp only [Function.comp_apply, Overrides.sees, hdepth, hd, ho]
  have hsaid : (o.map φ).said referrer m = o.said referrer m := by
    rw [Overrides.said, Overrides.map, List.filter_map, List.filterMap_map, ← Overrides.map, hsees, Overrides.said]
    exact List.filterMap_congr fun l _ => hs l
  rw [Overrides.action, hsaid, Overrides.action]

namespace Revision.Keeps

variable {v : Revision} {asset : PredicateSet} {now : Timestamp} {φ : Layer → Layer} (h : v.Keeps asset now φ)
include h

theorem action (o : Overrides) : (o.map φ).action = o.action := by
  funext referrer m
  exact Overrides.action_map h.depth h.owner (h.said · m) o referrer

theorem addLevel (o : Overrides) (level : List Policy) (depth : Nat) :
    (o.map φ).addLevel asset now (level.map v.policy) depth = (o.addLevel asset now level depth).map φ := by
  simp [Overrides.addLevel, Overrides.map, h.layer]

theorem follows : Overrides.Follows asset now v.policy (fun o o' => o' = o.map φ) (fun _ => True) fun _ => True where
  mrn := v.policy_mrn
  leads hr p m _ := Overrides.leads_congr (v.policy_mrn p) (h.references p) (hr ▸ h.action _) m
  addLevel level depth _ hr := hr ▸ h.addLevel _ level depth

theorem collect (b : Bundle) (assigned : List Mrn) : Overrides.collect (b.revise v) asset now assigned =
    (Overrides.collect b asset now assigned).map φ :=
  h.follows.collect b (fun _ _ => trivial) (fun _ _ => .rfl) (fun _ _ _ => trivial) rfl rfl

end Revision.Keeps

structure Revision.KeepsScope (v : Revision) : Prop where
  leads : ∀ p, ((v.policy p).declaredContent.flatMap fun g => g.policies.map (·.mrn)) =
    p.declaredContent.flatMap fun g => g.policies.map (·.mrn)
  gates : ∀ p, (v.policy p).declaredContent.map (·.required) = p.declaredContent.map (·.required)
  asks : ∀ p, ((v.policy p).declaredContent.flatMap fun g => (g.checks ++ g.queries).map (·.mrn)) =
    p.declaredContent.flatMap fun g => (g.checks ++ g.queries).map (·.mrn)
  risks : ∀ p, ((v.policy p).declaredContent.flatMap (·.riskFactors) ++ (v.policy p).riskFactors).map (·.mrn) =
    (p.declaredContent.flatMap (·.riskFactors) ++ p.riskFactors).map (·.mrn)
  gate : ∀ k, (v.riskFactor k).required = k.required
  probes : ∀ k, (v.riskFactor k).checks = k.checks
  narrows : ∀ q, (v.query q).required = q.required
  variants : ∀ q, (v.query q).variants = q.variants

theorem Bundle.narrowings_revise (b : Bundle) {v : Revision} (hn : ∀ q, (v.query q).required = q.required)
    (hv : ∀ q, (v.query q).variants = q.variants) (m : Mrn) : (b.revise v).narrowings m = b.narrowings m := by
  have hvariants : ∀ l : List Mrn, (l.filterMap (b.revise v).queries.find?).flatMap (·.required) =
      (l.filterMap b.queries.find?).flatMap (·.required) := by
    intro l
    have hfind : l.filterMap (b.revise v).queries.find? = (l.filterMap b.queries.find?).map v.query := by
      rw [List.map_filterMap]
      exact List.filterMap_congr fun _ _ => by rw [Bundle.revise, Keyed.find?_map]
    simp only [hfind, List.flatMap_map, hn]
  rw [Bundle.narrowings, Bundle.narrowings]
  cases hq : b.queries.find? m with
  | none =>
    have hq' : (b.revise v).queries.find? m = none := by rw [Bundle.revise, Keyed.find?_map, hq, Option.map_none]
    rw [hq']
  | some q =>
    have hq' : (b.revise v).queries.find? m = some (v.query q) := by
      rw [Bundle.revise, Keyed.find?_map, hq, Option.map_some]
    simp only [hq', hn, hv, hvariants]

namespace Revision.KeepsScope

variable {v : Revision} (h : v.KeepsScope) (b : Bundle)
include h

theorem hierarchy (assigned : List Mrn) : (b.revise v).hierarchy assigned = (b.hierarchy assigned).map v.policy := by
  have hsearch : preorder (b.revise v).policies Policy.mrn
      (fun p => p.declaredContent.flatMap fun g => g.policies.map (·.mrn)) [] assigned =
        (preorder b.policies Policy.mrn (fun p => p.declaredContent.flatMap fun g => g.policies.map (·.mrn)) [] assigned).map
          fun x => (x.1, x.2.map v.policy) :=
    preorder_map v.policy_mrn v.policy_mrn h.leads b.policies [] assigned
  rw [Bundle.hierarchy, hsearch, List.filterMap_map, Bundle.hierarchy, List.map_filterMap]
  rfl

theorem riskFactorsOf (p : Policy) :
    (b.revise v).riskFactorsOf (v.policy p) = (b.riskFactorsOf p).map v.riskFactor := by
  have hfind : ∀ l : List RiskFactorRef, l.filterMap (fun r => (b.revise v).riskFactors.find? r.mrn) =
      ((l.map (·.mrn)).filterMap b.riskFactors.find?).map v.riskFactor := by
    intro l
    simp only [Bundle.revise, Keyed.find?_map, List.filterMap_map, List.map_filterMap]
    rfl
  rw [Bundle.riskFactorsOf, hfind, h.risks, List.filterMap_map]
  rfl

theorem gatesOf (p : Policy) : (b.revise v).gates (v.policy p) = b.gates p := by
  simp only [Bundle.gates, h.gates, h.riskFactorsOf, List.map_map, Function.comp_def, h.gate]

theorem queriesOf (p : Policy) : (b.revise v).queriesOf (v.policy p) = b.queriesOf p := by
  simp only [Bundle.queriesOf, h.asks, h.riskFactorsOf, List.flatMap_map, h.probes]

theorem narrowings (m : Mrn) : (b.revise v).narrowings m = b.narrowings m :=
  b.narrowings_revise h.narrows h.variants m

theorem scope (assigned : List Mrn) : (b.revise v).scope assigned = b.scope assigned := by
  simp only [Bundle.scope, h.hierarchy, List.flatMap_map, h.gatesOf, h.queriesOf, funext (h.narrowings b)]

end Revision.KeepsScope

end Compliance
