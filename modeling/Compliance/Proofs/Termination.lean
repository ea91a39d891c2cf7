import Compliance.Proofs.Closure
import Compliance.Proofs.Depths
import Compliance.Proofs.Dives
import Compliance.Proofs.Expansions
import Compliance.Proofs.Reviews
import Mathlib.Data.List.Flatten

/-!
Resolution terminates. Every call enters a name that none of its stacks holds, so there are no more calls within one
another than the bundle has entities, and on stacks of that depth the walk makes the same draft.
-/

namespace Compliance

open Dive

namespace Setting

variable {s : Setting} {st : Stacks} {n : Nat}

theorem variantWithin_returns {below : Query → Dive (Option Identity)} {role : Role} {path : List Mrn} {q : Query}
    (h : ∀ v (hv : v ∈ s.bundle.queries.entries),
      Returns s.bundle st (below v) (s.query role (q.mrn :: path) (some q.mrn) v hv)) (m : Mrn) :
    Returns s.bundle st (s.variantWithin below q m) (s.variantStep role path q m) := by
  intro t ht hsound
  by_cases ha : s.overrides.action q.mrn m = .deactivate
  · simp only [variantStep_absent ha, variantWithin, Action.activation_eq_absent, ha, ↓reduceIte]
    exact Returns.pure none t ht hsound
  · cases hv : s.bundle.queries.find? m with
    | none =>
      simp only [variantStep_undeclared ha hv, variantWithin, Action.activation_eq_absent, ha, ↓reduceIte, hv]
      exact Returns.note _ none t ht hsound
    | some v =>
      simp only [variantStep_declared ha hv, variantWithin, Action.activation_eq_absent, ha, ↓reduceIte, hv]
      by_cases hm : s.asset.meets v.required = true
      · simp only [hm, ↓reduceIte]
        exact (h v (Keyed.mem_of_find? hv)).map _ t ht hsound
      · simp only [hm]
        exact Returns.pure none t ht hsound

theorem queryWithin_returns (role : Role) {path : List Mrn} (hst : s.bundle.Stacked st) (hpath : st .variant = path)
    (hn : unvisited Query.mrn s.bundle.queries.entries path < n) (composite : Option Mrn) (q : Query)
    (hq : q ∈ s.bundle.queries.entries) :
    Returns s.bundle st (s.queryWithin role n composite q) (s.query role path composite q hq) := by
  induction n generalizing st path composite q with
  | zero => omega
  | succ n ih =>
    rw [queryWithin]
    refine .call (.look fun t ht hsound => ?_)
    cases hc : q.isComposite with
    | false =>
      cases hk : q.code with
      | none =>
        rw [query_empty hc hk]
        simp only [Bool.false_eq_true, ↓reduceIte]
        exact Returns.note _ none t ht hsound
      | some c =>
        rw [query_code hc hk]
        simp only [Bool.false_eq_true, ↓reduceIte]
        exact Returns.lift _ t ht hsound
    | true =>
      simp only [↓reduceIte, ht, hpath]
      by_cases hp : q.mrn ∈ path
      · rw [query_cut hc hp, if_pos hp]
        exact Returns.note _ none t ht hsound
      · rw [query_composite hc hp, if_neg hp]
        have hlt := unvisited_cons_lt hq hp
        have hmember : q.mrn ∈ s.bundle.members .variant := List.mem_map_of_mem hq
        have hvariants : Returns s.bundle (st.push .variant q.mrn)
            (collect (s.variantWithin (fun v => s.queryWithin role n (some q.mrn) v) q) q.variants)
            (gather (s.variantStep role path q) q.variants) :=
          .collect fun m _ => variantWithin_returns
            (fun v hv => ih (hst.push (hpath ▸ hp) hmember) (hpath ▸ st.push_self ..) (by omega) (some q.mrn) v hv) m
        exact (hvariants.inside hst (hpath ▸ hp) hmember).bind (fun vs => .lift fun d => d.above role q vs) t ht hsound

theorem queryRefWithin_returns (hst : s.bundle.Stacked st) (hv : st .variant = []) (hn : s.bundle.queries.size < n)
    (role : Role) (referrer : Mrn) (r : QueryRef) :
    Returns s.bundle st (s.queryRefWithin n role referrer r) (s.queryRef role referrer r) := by
  have hroom := unvisited_le_length Query.mrn s.bundle.queries.entries []
  refine .call fun t ht hsound => ?_
  by_cases ha : s.overrides.effective referrer r.mrn r.action = .deactivate
  · simp only [queryRef_absent ha, Action.activation_eq_absent, ha, ↓reduceIte]
    exact Returns.pure none t ht hsound
  · cases hq : s.bundle.queries.find? r.mrn with
    | none =>
      simp only [queryRef_undeclared ha hq, Action.activation_eq_absent, ha, ↓reduceIte]
      exact Returns.note _ none t ht hsound
    | some q =>
      simp only [queryRef_declared ha hq, Action.activation_eq_absent, ha, ↓reduceIte]
      by_cases hm : s.asset.meets q.required = true
      · simp only [hm, ↓reduceIte]
        exact (queryWithin_returns role hst hv (Nat.lt_of_le_of_lt hroom hn) none q _).map _ t ht hsound
      · simp only [hm]
        exact Returns.pure none t ht hsound

theorem riskFactorJobWithin_returns (hst : s.bundle.Stacked st) (hv : st .variant = []) (hn : s.bundle.queries.size < n)
    (k : RiskFactor) : Returns s.bundle st (s.riskFactorJobWithin n k) (s.riskFactorJob k) := by
  refine .call fun t ht hsound => ?_
  cases hk : s.isLive k with
  | false =>
    rw [riskFactorJob_idle hk]
    exact Returns.pure false t ht hsound
  | true =>
    have hlinks : Returns s.bundle st (collect (s.queryRefWithin n .check k.mrn) k.checks)
        (gather (s.queryRef .check k.mrn) k.checks) :=
      .collect fun r _ => queryRefWithin_returns hst hv hn .check k.mrn r
    have hweigh : ∀ made : Bool, Returns s.bundle st
        (if made then lift fun d => (true, { d with
          magnitudes := NameMap.set d.magnitudes k.mrn ((s.overrides.magnitude k.mrn).getD k.magnitude) }) else return false)
        (fun d => if made then (true, { d with
          magnitudes := NameMap.set d.magnitudes k.mrn ((s.overrides.magnitude k.mrn).getD k.magnitude) }) else (false, d)) := by
      intro made
      cases made with
      | false => exact .pure false
      | true => exact .lift fun d => (true, { d with
          magnitudes := NameMap.set d.magnitudes k.mrn ((s.overrides.magnitude k.mrn).getD k.magnitude) })
    simp only [riskFactorJob, hk, ↓reduceIte]
    exact (hlinks.bind fun ls => (Returns.lift fun d => d.structural k.mrn .riskFactor .unspecified ls).bind hweigh)
      t ht hsound

theorem riskFactorRefWithin_returns (hst : s.bundle.Stacked st) (hv : st .variant = []) (hn : s.bundle.queries.size < n)
    (referrer m : Mrn) : Returns s.bundle st (s.riskFactorRefWithin n referrer m) (s.riskFactorRef referrer m) := by
  refine .call (.look fun t ht hsound => ?_)
  cases hl : t.draft.riskFactors.lookup m with
  | some made =>
    rw [riskFactorRef_settled hl]
    exact Returns.pure _ t ht hsound
  | none =>
    cases hk : s.bundle.riskFactors.find? m with
    | none =>
      rw [riskFactorRef_undeclared hl hk]
      exact Returns.note _ none t ht hsound
    | some k =>
      rw [riskFactorRef_first hl hk]
      exact ((riskFactorJobWithin_returns hst hv hn k).bind fun made => .lift _) t ht hsound

theorem referenceWithin_returns {below : Mrn → Dive Bool} {below' : Mrn → Draft → Bool × Draft}
    (hst : s.bundle.Stacked st) (hv : st .variant = []) (hn : s.bundle.queries.size < n)
    (h : ∀ m, Returns s.bundle st (below m) (below' m)) (p : Policy) (r : Reference) :
    Returns s.bundle st (s.referenceWithin n below p r) (s.referenceStep below' p r) := by
  cases r with
  | query role r => exact queryRefWithin_returns hst hv hn role p.mrn r
  | riskFactor m => exact riskFactorRefWithin_returns hst hv hn p.mrn m
  | policy r =>
    refine .call fun t ht hsound => ?_
    by_cases ha : s.overrides.effective p.mrn r.mrn r.action = .deactivate
    · simp only [referenceStep, Action.activation_eq_absent, ha, ↓reduceIte]
      exact Returns.pure none t ht hsound
    · simp only [referenceStep, Action.activation_eq_absent, ha, ↓reduceIte]
      exact (h r.mrn).map _ t ht hsound

theorem policyLinksWithin_returns {below : Mrn → Dive Bool} {below' : Mrn → Draft → Bool × Draft}
    (hst : s.bundle.Stacked st) (hv : st .variant = []) (hn : s.bundle.queries.size < n)
    (h : ∀ m, Returns s.bundle st (below m) (below' m)) (p : Policy) :
    Returns s.bundle st (s.policyLinksWithin n below p) (s.policyLinks below' p) := by
  have hlinks : s.policyLinks below' p = gather (s.referenceStep below' p) (p.references s.asset s.now) :=
    s.policyLinks_eq below' p
  rw [hlinks]
  exact .call (.collect fun r _ => referenceWithin_returns hst hv hn h p r)

theorem policyWithin_returns {path : List Mrn} (hst : s.bundle.Stacked st) (hv : st .variant = []) (hpath : st .policy = path)
    (hn : s.bundle.queries.size + unvisited Policy.mrn s.bundle.policies.entries path < n) (referrer m : Mrn) :
    Returns s.bundle st (s.policyWithin n referrer m) (s.policy path referrer m) := by
  induction n generalizing st path referrer m with
  | zero => omega
  | succ n ih =>
    refine .call (.look fun t ht hsound => ?_)
    cases hl : t.draft.policies.lookup m with
    | some made =>
      rw [policy_settled hl]
      exact Returns.pure made t ht hsound
    | none =>
      simp only [ht, hpath]
      by_cases hp : m ∈ path
      · rw [policy_cut hl hp, if_pos hp]
        exact Returns.note _ false t ht hsound
      · cases hf : s.bundle.policies.find? m with
        | none =>
          rw [policy_undeclared hl hp hf, if_neg hp]
          exact Returns.note _ false t ht hsound
        | some p =>
          obtain rfl := Keyed.key_of_find? hf
          have hmem := Keyed.mem_of_find? hf
          have hlt := unvisited_cons_lt hmem hp
          have hmember : p.mrn ∈ s.bundle.members .policy := List.mem_map_of_mem hmem
          have hpush := hst.push (hpath ▸ hp) hmember
          have hlinks : Returns s.bundle (st.push .policy p.mrn) (s.policyLinksWithin n (s.policyWithin n p.mrn) p)
              (s.policyLinks (s.policy (p.mrn :: path) p.mrn) p) :=
            policyLinksWithin_returns hpush hv (by omega) (ih hpush hv (hpath ▸ st.push_self ..) (by omega) p.mrn) p
          rw [policy_first hl hp hf, if_neg hp]
          exact (hlinks.inside hst (hpath ▸ hp) hmember).bind
            (fun ls => .lift fun d => d.conclude .policy p.mrn (s.policyScoring p) ls) t ht hsound

end Setting

namespace ControlScope

variable {b : Bundle} {c : ControlScope} {st : Stacks} {n : Nat}

theorem linkWithin_returns {job : Mrn → Dive Bool} {job' : Mrn → Draft → Bool × Draft} {m : Mrn}
    (h : Returns b st (job m) (job' m)) : Returns b st (c.linkWithin job m) (c.link job' m) := by
  refine .call fun t ht hsound => ?_
  by_cases ha : c.standing m = .absent
  · simp only [link, ha, ↓reduceIte]
    exact Returns.pure none t ht hsound
  · simp only [link, ha, ↓reduceIte]
    exact h.map _ t ht hsound

theorem followWithin_returns {job : Mrn → Dive Bool} {job' : Mrn → Draft → Bool × Draft} {e : Evidence}
    (h : ∀ m, e = .control m → Returns b st (job m) (job' m)) :
    Returns b st (c.followWithin job e) (c.follow job' e) := by
  cases e with
  | query role r => exact .lift fun d => (d.linked role r, d)
  | control m => exact linkWithin_returns (h m rfl)

theorem controlWithin_returns {path : List Mrn} (hc : ∀ e ∈ c.evidence, e ∈ b.evidence) (hst : b.Stacked st)
    (hpath : st .control = path) (hn : unvisited ControlMap.mrn c.evidence path < n) {m : Mrn}
    (hb : m ∈ b.members .control) : Returns b st (c.controlWithin n m) (c.control path m) := by
  induction n generalizing st path m with
  | zero => omega
  | succ n ih =>
    refine .call (.look fun t ht hsound => ?_)
    cases hl : t.draft.controls.lookup m with
    | some made =>
      rw [control_settled hl]
      exact Returns.pure made t ht hsound
    | none =>
      simp only [ht, hpath]
      by_cases hp : m ∈ path
      · rw [control_cut hl hp, if_pos hp]
        exact Returns.note _ false t ht hsound
      · have hlinks : Returns b (st.push .control m)
            (collect (c.followWithin (c.controlWithin n)) (c.evidenceOf m))
            (gather (c.follow (c.control (m :: path))) (c.evidenceOf m)) := by
          refine .collect fun x hx => followWithin_returns fun m' hx' => ?_
          obtain ⟨e, hfilter, hlink⟩ := List.mem_flatMap.mp hx
          obtain ⟨he, hem⟩ := List.mem_filter.mp hfilter
          obtain rfl : e.mrn = m := by simpa using hem
          have hlt := unvisited_cons_lt he hp
          -- what a map leads to is a member, which is all that the stack may hold
          have hmember : m' ∈ b.members .control := by
            have hm' : m' ∈ e.controls := by simpa [ControlMap.links, hx'] using hlink
            exact List.mem_append_right _ (List.mem_flatMap.mpr ⟨e, hc e he, List.mem_cons_of_mem _ hm'⟩)
          exact ih (hst.push (hpath ▸ hp) hb) (hpath ▸ st.push_self ..) (by omega) hmember
        rw [control_open hl hp, if_neg hp]
        exact (hlinks.inside hst (hpath ▸ hp) hb).bind (fun ls => .lift fun d => d.conclude .control m .average ls) t ht hsound

end ControlScope

namespace Setting

variable {s : Setting} {c : ControlScope} {st : Stacks} {n : Nat}

theorem dependencyWithin_returns {below : Mrn → Dive Bool} {below' : Mrn → Draft → Bool × Draft} {b : Bundle}
    (h : ∀ m, Returns b st (below m) (below' m)) (r : FrameworkRef) :
    Returns b st (dependencyWithin below r) (dependencyStep below' r) := by
  intro t ht hsound
  by_cases ha : r.action.activation = .absent
  · simp only [dependencyWithin, dependencyStep, ha, ↓reduceIte]
    exact Returns.pure none t ht hsound
  · simp only [dependencyWithin, dependencyStep, ha, ↓reduceIte]
    exact (h r.mrn).map _ t ht hsound

theorem frameworkWithin_returns {path : List Mrn} (hc : ∀ e ∈ c.evidence, e ∈ s.bundle.evidence)
    (hst : s.bundle.Stacked st) (he : st .control = []) (hpath : st .framework = path)
    (hn : c.evidence.length + unvisited Framework.mrn s.bundle.frameworks.entries path < n) (m : Mrn) :
    Returns s.bundle st (s.frameworkWithin c n m) (s.framework c path m) := by
  induction n generalizing st path m with
  | zero => omega
  | succ n ih =>
    refine .call (.look fun t ht hsound => ?_)
    cases hl : t.draft.frameworks.lookup m with
    | some made =>
      rw [framework_settled hl]
      exact Returns.pure made t ht hsound
    | none =>
      simp only [ht, hpath]
      by_cases hp : m ∈ path
      · rw [framework_cut hl hp, if_pos hp]
        exact Returns.note _ false t ht hsound
      · cases hf : s.bundle.frameworks.find? m with
        | none =>
          rw [framework_undeclared hl hp hf, if_neg hp]
          exact Returns.pure false t ht hsound
        | some f =>
          obtain rfl := Keyed.key_of_find? hf
          have hmem := Keyed.mem_of_find? hf
          have hlt := unvisited_cons_lt hmem hp
          have hmember : f.mrn ∈ s.bundle.members .framework := List.mem_map_of_mem hmem
          have hpush := hst.push (hpath ▸ hp) hmember
          -- controls start from an empty path at each framework: their bound is the number of maps
          have hroom := unvisited_le_length ControlMap.mrn c.evidence []
          have hcontrols : Returns s.bundle (st.push .framework f.mrn)
              (collect (c.linkWithin (c.controlWithin n)) ((f.contentGroups s.now).flatMap (·.controls)))
              (gather (c.link (c.control [])) ((f.contentGroups s.now).flatMap (·.controls))) := by
            refine .collect fun m' hm' => ControlScope.linkWithin_returns ?_
            obtain ⟨g, hg, hm'⟩ := List.mem_flatMap.mp hm'
            have hmember' : m' ∈ s.bundle.members .control := List.mem_append_left _
              (List.mem_flatMap.mpr ⟨f, hmem, List.mem_flatMap.mpr ⟨g, List.mem_of_mem_filter hg, hm'⟩⟩)
            exact ControlScope.controlWithin_returns hc hpush he (by omega) hmember'
          have hbelow : Returns s.bundle (st.push .framework f.mrn)
              (collect (dependencyWithin (s.frameworkWithin c n)) f.dependencies)
              (gather (dependencyStep (s.framework c (f.mrn :: path))) f.dependencies) :=
            .collect fun r _ => dependencyWithin_returns (ih hpush he (hpath ▸ st.push_self ..) (by omega)) r
          have hlinks := (hcontrols.bind fun cs => hbelow.map (cs ++ ·)).inside hst (hpath ▸ hp) hmember
          rw [framework_first hl hp hf, if_neg hp]
          exact (hlinks.bind fun ls => .lift fun d => d.conclude .framework f.mrn .average ls) t ht hsound

theorem assignWithin_returns (hn : s.bundle.queries.size + s.bundle.policies.size < n) (asset m : Mrn) :
    Returns s.bundle .empty (s.assignWithin n asset m) fun d => ((), s.assign asset d m) := by
  have hroom := unvisited_le_length Policy.mrn s.bundle.policies.entries []
  have hn' : s.bundle.queries.size + unvisited Policy.mrn s.bundle.policies.entries [] < n :=
    Nat.lt_of_le_of_lt (Nat.add_le_add_left hroom _) hn
  exact .call ((policyWithin_returns Bundle.stacked_empty rfl rfl hn' asset m).bind fun made => .lift _)

theorem adoptWithin_returns (hc : ∀ e ∈ c.evidence, e ∈ s.bundle.evidence)
    (hn : c.evidence.length + s.bundle.frameworks.size < n) (m : Mrn) :
    Returns s.bundle .empty (s.adoptWithin n c m) fun d => ((), s.adopt assetRoot c d m) := by
  have hroom := unvisited_le_length Framework.mrn s.bundle.frameworks.entries []
  have hn' : c.evidence.length + unvisited Framework.mrn s.bundle.frameworks.entries [] < n :=
    Nat.lt_of_le_of_lt (Nat.add_le_add_left hroom _) hn
  exact .call ((frameworkWithin_returns hc Bundle.stacked_empty rfl rfl hn' m).bind fun made => .lift _)

theorem draftPolicyWithin_returns {p : Policy} (hp : p ∈ s.bundle.policies.entries)
    (hn : s.bundle.queries.size + s.bundle.policies.size < n) :
    Returns s.bundle .empty (s.draftPolicyWithin n p) fun d =>
      let links := s.policyLinks (s.policy [p.mrn] p.mrn) p d
      ((), { links.2 with graph := links.2.graph.connectAll (.mrn p.mrn) links.1 }) := by
  have hmember : p.mrn ∈ s.bundle.members .policy := List.mem_map_of_mem hp
  have hpush := Bundle.stacked_empty.push List.not_mem_nil hmember
  have hroom := unvisited_le_length Policy.mrn s.bundle.policies.entries [p.mrn]
  have hn' : s.bundle.queries.size + unvisited Policy.mrn s.bundle.policies.entries [p.mrn] < n :=
    Nat.lt_of_le_of_lt (Nat.add_le_add_left hroom _) hn
  have hlinks : Returns s.bundle (Stacks.empty.push .policy p.mrn) (s.policyLinksWithin n (s.policyWithin n p.mrn) p)
      (s.policyLinks (s.policy [p.mrn] p.mrn) p) :=
    policyLinksWithin_returns hpush rfl (by omega) (policyWithin_returns hpush rfl rfl hn' p.mrn) p
  exact (hlinks.inside Bundle.stacked_empty List.not_mem_nil hmember).bind fun ls => .lift _

theorem length_scopeOf_evidence (assigned : List Mrn) (d : Draft) :
    (s.scopeOf assigned d).evidence.length ≤ s.bundle.evidence.length := by
  simp only [scopeOf, controlScope, candidateMaps, List.filter_map, List.flatMap_map, Bundle.evidence]
  exact ((List.filter_sublist.trans List.filter_sublist).flatMap _).length_le

theorem addFrameworksWithin_returns (hn : s.bundle.evidence.length + s.bundle.frameworks.size < n) (assigned : List Mrn) :
    Returns s.bundle .empty (s.addFrameworksWithin n assigned) fun d => ((), s.addFrameworks assetRoot assigned d) := by
  refine .look fun t ht hsound => ?_
  have hroom : (s.scopeOf assigned t.draft).evidence.length + s.bundle.frameworks.size < n :=
    Nat.lt_of_le_of_lt (Nat.add_le_add_right (length_scopeOf_evidence assigned t.draft) _) hn
  have hadopt := Returns.forM (l := assigned) fun m _ => adoptWithin_returns (s.scopeOf_evidence assigned) hroom m
  rw [addFrameworks_eq]
  exact ((Returns.lift fun d => ((), { d with events := d.events ++ s.frameworkEvents assigned d })).bind
    fun _ => hadopt) t ht hsound

theorem draftAssetWithin_returns (hn : s.bundle.queries.size + s.bundle.policies.size < n)
    (hn' : s.bundle.evidence.length + s.bundle.frameworks.size < n) (asset : Mrn) (policies frameworks : List Mrn) :
    Returns s.bundle .empty (s.draftAssetWithin n asset policies frameworks) fun d =>
      ((), s.addFrameworks assetRoot frameworks (policies.foldl (s.assign asset) d)) :=
  (Returns.forM fun m _ => assignWithin_returns hn asset m).bind fun _ => addFrameworksWithin_returns hn' frameworks

end Setting

namespace Overrides

def growWithin (asset : PredicateSet) (now : Timestamp) : Nat → List Policy → List Policy → Nat → Overrides → Option Overrides
  | 0, _, _, _, _ => none
  | n + 1, pool, level, depth, o =>
    let o := o.addLevel asset now level depth
    if o.reached asset now level pool = [] then some o
    else growWithin asset now n (o.unreached asset now level pool) (o.reached asset now level pool) (depth + 1) o

theorem growWithin_eq {asset : PredicateSet} {now : Timestamp} {n : Nat} {pool : List Policy} (h : pool.length < n)
    (level : List Policy) (depth : Nat) (o : Overrides) :
    growWithin asset now n pool level depth o = some (grow asset now pool level depth o) := by
  induction n generalizing pool level depth o with
  | zero => omega
  | succ n ih =>
    simp only [growWithin]
    by_cases hr : (o.addLevel asset now level depth).reached asset now level pool = []
    · rw [if_pos hr, grow_last hr]
    · have hless := length_unreached_lt _ hr
      rw [if_neg hr, ih (by omega), grow_next hr]

def collectWithin (b : Bundle) (asset : PredicateSet) (now : Timestamp) (n : Nat) (assigned : List Mrn) : Option Overrides :=
  growWithin asset now n (b.policies.entries.filter fun p => !assigned.contains p.mrn)
    (b.policies.entries.filter fun p => assigned.contains p.mrn) 0 {}

theorem collectWithin_eq {b : Bundle} {n : Nat} (h : b.policies.size < n) (asset : PredicateSet) (now : Timestamp)
    (assigned : List Mrn) : collectWithin b asset now n assigned = some (collect b asset now assigned) :=
  growWithin_eq (Nat.lt_of_le_of_lt (List.length_filter_le ..) h) ..

end Overrides

structure Trek.Complete (b : Bundle) (t : Trek) : Prop extends t.Sound b where
  left : t.held = Stacks.empty
  depth : ∀ st ∈ t.moments, ∀ k, (st k).length ≤ (b.members k).dedup.length

theorem Dive.Returns.complete {b : Bundle} {α : Type} {x : Dive α} {f : Draft → α × Draft}
    (h : Returns b Stacks.empty x f) (d : Draft) :
    ∃ t, (x { draft := d }).map (·.2) = some t ∧ t.draft = (f d).2 ∧ t.Complete b := by
  have hstart : Trek.Sound b { draft := d } :=
    ⟨fun st hst => List.mem_singleton.mp hst ▸ Bundle.stacked_empty, nofun⟩
  obtain ⟨t, hx, hd, hleft, hsound⟩ := h { draft := d } rfl hstart
  exact ⟨t, by rw [hx]; rfl, hd, { hsound with left := hleft, depth := fun st hst k => (hsound.moments st hst).length_le }⟩

namespace Bundle

def callDepth (b : Bundle) : Nat := max (b.queries.size + b.policies.size) (b.evidence.length + b.frameworks.size)

theorem draftWithin_returns (b : Bundle) (r : Request) {n : Nat} (hn : b.callDepth < n) :
    (∃ e, b.draft r = .error e ∧ b.draftWithin n r = .error e) ∨
      ∃ root t, b.draft r = .ok (root, t.draft) ∧ b.draftWithin n r = .ok (root, some t) ∧ t.Complete b := by
  have hpolicies : b.queries.size + b.policies.size < n := Nat.lt_of_le_of_lt (Nat.le_max_left ..) hn
  have hframeworks : b.evidence.length + b.frameworks.size < n := Nat.lt_of_le_of_lt (Nat.le_max_right ..) hn
  unfold draft draftWithin
  cases r.target with
  | policy m =>
    dsimp only
    cases hm : b.policies.find? m with
    | none => exact .inl ⟨_, rfl, rfl⟩
    | some p =>
      have hreturns := Setting.draftPolicyWithin_returns (s := b.setting r) (Keyed.mem_of_find? hm) hpolicies
      obtain ⟨t, ht, hd, hcomplete⟩ := hreturns.complete (.start (.mrn p.mrn) p.scoring p.mrn)
      refine .inr ⟨.mrn m, t, ?_, ?_, hcomplete⟩
      · rw [hd]
        rfl
      · simp only [ht]
  | asset asset policies frameworks =>
    have hreturns := Setting.draftAssetWithin_returns (s := b.setting r) hpolicies hframeworks asset
      (policies.filter b.isDeclared) frameworks
    obtain ⟨t, ht, hd, hcomplete⟩ := hreturns.complete (.start assetRoot .unspecified asset)
    refine .inr ⟨assetRoot, t, ?_, ?_, hcomplete⟩
    · rw [hd]
      rfl
    · simp only [ht]

theorem code_of_contributor {b : Bundle} {starts : List Mrn}
    (hs : ∀ m ∈ starts, ∀ q, b.queries.find? m = some q → q.code.isSome = true) :
    ∀ q ∈ b.contributors starts, q.code.isSome = true := by
  refine forall_mem_preorder hs fun q _ _ n hn q' hq' => ?_
  obtain ⟨p, -, rfl, id, hid⟩ := mem_readBy.mp hn
  obtain ⟨q₀, c, hq₀, hc, -⟩ := boundCode_eq_some.mp hid
  obtain rfl := Option.some.inj (hq'.symm.trans hq₀)
  simp [hc]

/-- Resolution ends. The draft is made by calls that are within one another no more often than there are entities: at every
moment the stacks hold distinct entities, and every call leaves them as it found them. The searches around it come back
too: each policy is expanded once for the scope and once for the overrides, each framework is found once, and each query
that is expanded for the code to run brings code that was not there before. -/
structure Terminates (b : Bundle) (r : Request) : Prop where
  drafted : ∀ n, b.callDepth < n → (∃ e, b.draft r = .error e ∧ b.draftWithin n r = .error e) ∨
    ∃ root t, b.draft r = .ok (root, t.draft) ∧ b.draftWithin n r = .ok (root, some t) ∧ t.Complete b
  probed : Expands b.policies Policy.mrn (fun p => p.declaredContent.flatMap fun g => g.policies.map (·.mrn))
    r.target.assigned (b.hierarchy r.target.assigned)
  indexed : ∀ n, b.policies.size < n →
    Overrides.collectWithin b r.asset r.now n r.target.assigned = some (b.setting r).overrides
  layered : ((b.setting r).overrides.layers.map (·.owner)).Nodup ∧
    ∀ l ∈ (b.setting r).overrides.layers, l.owner ∈ b.policies.keys
  discovered : ∀ frameworks, Expands b.frameworks Framework.mrn Framework.heeded frameworks
    (((b.setting r).discovered frameworks).filterMap (·.2))
  executed : ∀ root d, b.draft r = .ok (root, d) → Expands b.queries (fun q => q.code.map (·.id)) b.readBy d.graph.starts
    (b.contributors d.graph.starts) ∧ ∀ q ∈ b.contributors d.graph.starts, q.code.isSome = true

theorem terminates (b : Bundle) (r : Request) : b.Terminates r where
  drafted _ hn := b.draftWithin_returns r hn
  probed := preorder_expands ..
  indexed _ hn := Overrides.collectWithin_eq hn ..
  layered := by
    refine ⟨Setting.owners_nodup (b.setting_collected r), fun l hl => ?_⟩
    obtain ⟨p, hp, hw⟩ := (Setting.mem_owners_iff (b.setting_collected r) l.owner).mp (List.mem_map_of_mem hl)
    exact hp ▸ List.mem_map_of_mem (Keyed.mem_of_find? hw.declared)
  discovered _ := preorder_expands ..
  executed root d hd := by
    refine ⟨preorder_expands .., code_of_contributor fun m hm q hq => ?_⟩
    obtain ⟨j, hj, -, id, ho⟩ := Graph.mem_starts.mp hm
    obtain ⟨q', c, hs⟩ := (draft_stocked hd j hj).of_origin ho
    obtain rfl := Option.some.inj (hq.symm.trans hs.query)
    simp [hs.code]

end Bundle

end Compliance
