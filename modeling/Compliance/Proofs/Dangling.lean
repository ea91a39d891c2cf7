import Compliance.Proofs.Audits
import Compliance.Proofs.Omissions
import Compliance.Proofs.Rooted

namespace Compliance

def ControlScope.prune (keep : Mrn → Bool) (c : ControlScope) : ControlScope :=
  { c with evidence := c.evidence.map (·.prune keep) }

def Evidence.isKept (keep : Mrn → Bool) : Evidence → Bool
  | query _ r => keep r.mrn
  | control _ => true

theorem ControlMap.links_prune (keep : Mrn → Bool) (e : ControlMap) :
    (e.prune keep).links = e.links.filter (Evidence.isKept keep) := by
  simp [links, prune, List.filter_map, Function.comp_def, Evidence.isKept]

namespace ControlScope

variable {s : Setting} {c : ControlScope}

theorem link_omits {job job' : Mrn → Draft → Bool × Draft} {m : Mrn} (h : Lockstep s.Omits (job m) (job' m)) :
    Lockstep s.Omits (c.link job m) ((c.prune s.bundle.declares).link job' m) := by
  have hstanding : (c.prune s.bundle.declares).standing m = c.standing m := rfl
  unfold ControlScope.link
  rw [hstanding]
  by_cases ha : c.standing m = .absent
  · simp only [ha, ↓reduceIte]
    exact .idle none
  · simp only [ha, ↓reduceIte]
    exact h.map fun made : Bool => if made then some ((.mrn m, Impact.of (c.standing m) .unspecified none) : Link) else none

theorem evidenceOf_prune (keep : Mrn → Bool) (m : Mrn) :
    (c.prune keep).evidenceOf m = (c.evidenceOf m).filter (Evidence.isKept keep) := by
  have hevidence : (c.prune keep).evidence.filter (·.mrn == m) = (c.evidence.filter (·.mrn == m)).map (·.prune keep) :=
    List.filter_map ..
  rw [evidenceOf, hevidence, List.flatMap_map]
  simp only [ControlMap.links_prune, ← List.filter_flatMap, evidenceOf]

theorem follow_omits {job job' : Mrn → Draft → Bool × Draft} {x : Evidence}
    (h : ∀ n, x = .control n → Lockstep s.Omits (job n) (job' n)) :
    Lockstep s.Omits (c.follow job x) ((c.prune s.bundle.declares).follow job' x) := by
  cases x with
  | query role r =>
    intro d d' hd
    simp only [follow, Draft.linked, hd.index]
    exact ⟨trivial, hd⟩
  | control n => exact link_omits (h n rfl)

theorem follow_skipped {job : Mrn → Draft → Bool × Draft} {x : Evidence} (hx : x.isKept s.bundle.declares = false)
    {d d' : Draft} (hd : s.Omits d d') : c.follow job x d = (none, d) := by
  cases x with
  | query role r =>
    have hr : s.bundle.declares r.mrn = false := hx
    simp only [follow, Draft.linked, hd.lookup_index hr, Option.map_none, ite_self]
  | control n => cases hx

theorem control_omits (path : List Mrn) (m : Mrn) :
    Lockstep s.Omits (c.control path m) ((c.prune s.bundle.declares).control path m) := by
  intro d d' hd
  have hledger : d.controls = d'.controls := hd.ledger .control
  cases hl : d.controls.lookup m with
  | some made =>
    rw [control_settled hl, control_settled (hledger ▸ hl)]
    exact ⟨rfl, hd⟩
  | none =>
    have hl' : d'.controls.lookup m = none := hledger ▸ hl
    by_cases hm : m ∈ path
    · rw [control_cut hl hm, control_cut hl' hm]
      exact ⟨rfl, hd.apply (e := .note (.controlCycle m)) rfl⟩
    · rw [control_open hl hm, control_open hl' hm, evidenceOf_prune]
      have hlinks : Lockstep s.Omits (gather (c.follow (c.control (m :: path))) (c.evidenceOf m))
          (gather ((c.prune s.bundle.declares).follow ((c.prune s.bundle.declares).control (m :: path)))
            ((c.evidenceOf m).filter (Evidence.isKept s.bundle.declares))) := by
        refine Lockstep.gather_filter (fun x hx _ => follow_omits fun n _ => ?_) fun x _ hx d d' hd => ?_
        · obtain ⟨e, he, -⟩ := List.mem_flatMap.mp hx
          obtain ⟨hin, hem⟩ := List.mem_filter.mp he
          exact control_omits (m :: path) n
        · rw [follow_skipped hx hd]
          exact ⟨rfl, hd⟩
      exact hlinks.bind (fun ls => Setting.conclude_omits .control .average ls (absurd rfl)) d d' hd
termination_by unvisited ControlMap.mrn c.evidence path
decreasing_by
  obtain rfl : e.mrn = m := by simpa using hem
  exact unvisited_cons_lt hin hm

end ControlScope

namespace Setting

variable {s : Setting}

theorem pruned_framework {m : Mrn} {f : Option Framework} (h : s.bundle.frameworks.find? m = f) :
    s.pruned.bundle.frameworks.find? m = f.map (Framework.prune s.bundle.declares) := h ▸ s.bundle.find?_frameworks_prune m

theorem framework_skipped {c : ControlScope} {path : List Mrn} (hpath : ∀ n ∈ path, s.bundle.declares n = true) {m : Mrn}
    (hn : s.bundle.declares m = false) {d d' : Draft} (hd : s.Omits d d') : s.framework c path m d = (false, d) := by
  have hl : d.frameworks.lookup m = none := hd.lookup_ledger (t := .framework) nofun hn
  have hm : m ∉ path := fun hm => Bool.false_ne_true (hn.symm.trans (hpath m hm))
  exact framework_undeclared hl hm (Bundle.declares_eq_false.mp hn).2.1

theorem dependencyStep_omits {below below' : Mrn → Draft → Bool × Draft} {r : FrameworkRef}
    (h : Lockstep s.Omits (below r.mrn) (below' r.mrn)) :
    Lockstep s.Omits (dependencyStep below r) (dependencyStep below' r) := by
  unfold dependencyStep
  by_cases ha : r.action.activation = .absent
  · simp only [ha, ↓reduceIte]
    exact .idle none
  · simp only [ha, ↓reduceIte]
    exact h.map fun made : Bool =>
      if made then some ((.mrn r.mrn, Impact.of r.action.activation .unspecified none) : Link) else none

theorem framework_omits (c : ControlScope) {path : List Mrn} (hpath : ∀ n ∈ path, s.bundle.declares n = true) (m : Mrn) :
    Lockstep s.Omits (s.framework c path m) (s.pruned.framework (c.prune s.bundle.declares) path m) := by
  intro d d' hd
  have hledger : d.frameworks = d'.frameworks := hd.ledger .framework
  cases hl : d.frameworks.lookup m with
  | some made =>
    rw [framework_settled hl, framework_settled (hledger ▸ hl)]
    exact ⟨rfl, hd⟩
  | none =>
    have hl' : d'.frameworks.lookup m = none := hledger ▸ hl
    by_cases hm : m ∈ path
    · rw [framework_cut hl hm, framework_cut hl' hm]
      exact ⟨rfl, hd.apply (e := .note (.frameworkCycle m)) rfl⟩
    · cases hf : s.bundle.frameworks.find? m with
      | none =>
        have hf' : s.pruned.bundle.frameworks.find? m = none := pruned_framework hf
        rw [framework_undeclared hl hm hf, framework_undeclared hl' hm hf']
        exact ⟨rfl, hd⟩
      | some f =>
        have hf' : s.pruned.bundle.frameworks.find? m = some (f.prune s.bundle.declares) := pruned_framework hf
        have hn := Bundle.declares_framework hf
        obtain rfl := Keyed.key_of_find? hf
        have hpath' : ∀ n ∈ f.mrn :: path, s.bundle.declares n = true := List.forall_mem_cons.mpr ⟨hn, hpath⟩
        have hcontents : (f.prune s.bundle.declares).contentGroups s.pruned.now = f.contentGroups s.now := rfl
        have hdependencies : (f.prune s.bundle.declares).dependencies = f.dependencies.filter (s.bundle.declares ·.mrn) := rfl
        rw [framework_first hl hm hf, framework_first hl' hm hf', hcontents, hdependencies]
        have hcontrols : Lockstep s.Omits (gather (c.link (c.control [])) ((f.contentGroups s.now).flatMap (·.controls)))
            (gather ((c.prune s.bundle.declares).link ((c.prune s.bundle.declares).control []))
              ((f.contentGroups s.now).flatMap (·.controls))) :=
          .gather fun n _ => ControlScope.link_omits (ControlScope.control_omits [] n)
        have hbelow : Lockstep s.Omits (gather (dependencyStep (s.framework c (f.mrn :: path))) f.dependencies)
            (gather (dependencyStep (s.pruned.framework (c.prune s.bundle.declares) (f.mrn :: path)))
              (f.dependencies.filter (s.bundle.declares ·.mrn))) := by
          -- a dependency that is not declared has no job, whether it is looked up or left out
          refine Lockstep.gather_filter (fun r _ _ => dependencyStep_omits (framework_omits c hpath' r.mrn))
            fun r _ hr d d' hd => ?_
          simp only [dependencyStep, framework_skipped hpath' hr hd]
          split
          · exact ⟨rfl, hd⟩
          · exact ⟨rfl, hd⟩
        have hrest := fun controls : List Link => hbelow.bind fun below =>
          conclude_omits .framework .average (controls ++ below) fun _ => hn
        exact hcontrols.bind hrest d d' hd
termination_by unvisited Framework.mrn s.bundle.frameworks.entries path
decreasing_by exact unvisited_cons_lt (Keyed.mem_of_find? hf) hm

theorem discovered_pruned (assigned : List Mrn) : s.pruned.discovered (assigned.filter s.bundle.declares) =
    ((s.discovered assigned).filter (s.bundle.declares ·.1)).map fun x => (x.1, x.2.map (Framework.prune s.bundle.declares)) := by
  have hmrn := (Revision.pruning s.bundle.declares).framework_mrn
  rw [discovered, discovered]
  exact preorder_prune hmrn hmrn Framework.next_prune (fun _ h => (Bundle.declares_eq_false.mp h).2.1) [] assigned

theorem active_pruned (assigned : List Mrn) : (s.pruned.discovered (assigned.filter s.bundle.declares)).filterMap (·.2) =
    ((s.discovered assigned).filterMap (·.2)).map (Framework.prune s.bundle.declares) := by
  have hmrn := (Revision.pruning s.bundle.declares).framework_mrn
  rw [discovered, discovered]
  exact filterMap_preorder_prune hmrn hmrn Framework.next_prune (fun _ h => (Bundle.declares_eq_false.mp h).2.1) [] assigned

theorem candidateMaps_pruned (active : List Framework) {d d' : Draft} (hd : d.policies = d'.policies) :
    s.pruned.candidateMaps (active.map (Framework.prune s.bundle.declares)) d' =
      (s.candidateMaps active d).map fun x => (x.1.prune s.bundle.declares, x.2) := by
  have hmaps : s.pruned.bundle.maps = s.bundle.maps.map (FrameworkMap.prune s.bundle.declares) := rfl
  simp only [candidateMaps, hmaps, List.filter_map, List.map_map, List.any_map, hd]
  rfl

theorem scopeOf_pruned (assigned : List Mrn) {d d' : Draft} (hd : d.policies = d'.policies) :
    s.pruned.scopeOf (assigned.filter s.bundle.declares) d' = (s.scopeOf assigned d).prune s.bundle.declares := by
  simp only [scopeOf, active_pruned, candidateMaps_pruned _ hd, controlScope, ControlScope.prune, List.flatMap_map,
    List.filter_map, List.map_flatMap]
  rfl

theorem frameworkEvents_pruned (assigned : List Mrn) {d d' : Draft} (hd : d.policies = d'.policies) :
    s.Sheds (s.frameworkEvents assigned d) (s.pruned.frameworkEvents (assigned.filter s.bundle.declares) d') := by
  have hunknown : ((s.pruned.discovered (assigned.filter s.bundle.declares)).filter (·.2.isNone)).map
      (Event.undeclaredFramework ·.1) = (((s.discovered assigned).filter (·.2.isNone)).filter (s.bundle.declares ·.1)).map
        (Event.undeclaredFramework ·.1) := by
    simp [discovered_pruned, List.filter_map, List.filter_filter, Function.comp_def, Bool.and_comm]
  have hidle : ((s.pruned.candidateMaps ((s.pruned.discovered (assigned.filter s.bundle.declares)).filterMap (·.2)) d').filter
      (!·.2)).map (Event.inactiveMap ·.1.mrn) = ((s.candidateMaps ((s.discovered assigned).filterMap (·.2)) d).filter
        (!·.2)).map (Event.inactiveMap ·.1.mrn) := by
    rw [active_pruned, candidateMaps_pruned _ hd, List.filter_map, List.map_map]
    rfl
  simp only [frameworkEvents, hunknown, hidle]
  refine .append (.of_filter fun x _ => by simp [Bundle.dangles, Event.skipped]) (.same fun e he => ?_)
  obtain ⟨x, -, rfl⟩ := List.mem_map.mp he
  rfl

theorem announce_omits (assigned : List Mrn) {d d' : Draft} (hd : s.Omits d d') :
    s.Omits { d with events := d.events ++ s.frameworkEvents assigned d }
      { d' with events := d'.events ++ s.pruned.frameworkEvents (assigned.filter s.bundle.declares) d' } where
  rest := hd.rest
  log := hd.log.append (frameworkEvents_pruned assigned (hd.ledger .policy))
  settled t ht x hx := hd.settled t ht x (by cases t <;> exact hx)
  entered role m i hi := hd.entered role m i (by cases role <;> exact hi)

theorem addFrameworks_omits (root : Identity) (assigned : List Mrn) {d d' : Draft} (hd : s.Omits d d') :
    s.Omits (s.addFrameworks root assigned d) (s.pruned.addFrameworks root (assigned.filter s.bundle.declares) d') := by
  rw [addFrameworks_eq, addFrameworks_eq, scopeOf_pruned assigned (hd.ledger .policy)]
  generalize s.scopeOf assigned d = c
  have hpath : ∀ n ∈ ([] : List Mrn), s.bundle.declares n = true := nofun
  refine Lockstep.foldl_filter (fun m _ hn d d' hd => ?_) (fun m _ hn d d' hd => ?_) (announce_omits assigned hd)
  · obtain ⟨hmade, hr⟩ := framework_omits c hpath m d d' hd
    simp only [adopt, ← hmade]
    split
    · exact hr.apply (e := .connect root (.mrn m) .ignored) trivial
    · exact hr
  · simpa [adopt, framework_skipped (c := c) hpath hn hd] using hd

theorem hang_omits (root : Identity) (ls : List Link) {d d' : Draft} (hd : s.Omits d d') :
    s.Omits { d with graph := d.graph.connectAll root ls } { d' with graph := d'.graph.connectAll root ls } where
  rest := congrArg (fun d : Draft => { d with graph := d.graph.connectAll root ls }) hd.rest
  log := hd.log
  settled t ht x hx := hd.settled t ht x (by cases t <;> exact hx)
  entered role m i hi := hd.entered role m i (by cases role <;> exact hi)

theorem draftPolicy_omits {p : Policy} (hn : s.bundle.declares p.mrn = true) :
    s.Omits (s.draftPolicy p) (s.pruned.draftPolicy (p.prune s.bundle.declares)) := by
  have hpath : ∀ n ∈ [p.mrn], s.bundle.declares n = true := by simpa using hn
  have hlinks := policyLinks_omits (p := p) (fun n hn => policy_omits hpath p.mrn n hn)
    fun n hn d d' hd => policy_skipped hpath p.mrn hn hd
  obtain ⟨hout, hr⟩ := hlinks _ _ (Omits.start (.mrn p.mrn) p.scoring p.mrn)
  have hmrn : (p.prune s.bundle.declares).mrn = p.mrn := rfl
  have hscoring : (p.prune s.bundle.declares).scoring = p.scoring := rfl
  simp only [draftPolicy, hmrn, hscoring, ← hout]
  exact hang_omits (.mrn p.mrn) _ hr

theorem draftAsset_omits (asset : Mrn) {policies : List Mrn} (hn : ∀ m ∈ policies, s.bundle.declares m = true)
    (frameworks : List Mrn) : s.Omits (s.draftAsset asset policies frameworks)
      (s.pruned.draftAsset asset policies (frameworks.filter s.bundle.declares)) := by
  have hpath : ∀ n ∈ ([] : List Mrn), s.bundle.declares n = true := nofun
  apply addFrameworks_omits
  refine Lockstep.foldl (fun m hm d d' hd => ?_) (Omits.start ..)
  obtain ⟨hmade, hr⟩ := policy_omits hpath asset m (hn m hm) d d' hd
  simp only [assign, ← hmade]
  split
  · exact hr.apply (e := .connect assetRoot (.mrn m) {}) trivial
  · exact hr

end Setting

def Binding.prune (keep : Mrn → Bool) : Binding → Binding
  | bound name q c => .bound name (q.prune keep) c
  | undeclared m => .undeclared m
  | codeless m => .codeless m

namespace Bundle

variable (b : Bundle)

theorem binding_prune (x : Property) : b.prune.binding x = (b.binding x).prune b.declares := by
  rw [binding, find?_queries_prune, binding]
  cases b.queries.find? x.mrn with
  | none => rfl
  | some q => cases hk : q.code <;> simp [Query.prune, hk, Binding.prune]

theorem binding_dangling {x : Property} (h : b.declares x.mrn = false) : b.binding x = .undeclared x.mrn := by
  rw [binding, (declares_eq_false.mp h).2.2.1]

theorem undeclared_of_binding {x : Property} {m : Mrn} (h : b.binding x = .undeclared m) : m = x.mrn := by
  rw [binding] at h
  split at h
  · exact (Binding.undeclared.inj h).symm
  · split at h <;> cases h

theorem filterMap_bindings_prune {β : Type} {g : Binding → Option β} (hg : ∀ x : Binding, g (x.prune b.declares) = g x)
    (hn : ∀ m, g (.undeclared m) = none) (q : Query) :
    (b.prune.bindings (q.prune b.declares)).filterMap g = (b.bindings q).filterMap g := by
  simp only [bindings, Query.prune, List.filterMap_map, List.filterMap_filter, Function.comp_def, binding_prune, hg]
  refine List.filterMap_congr fun x _ => ?_
  cases hx : b.declares x.mrn with
  | true => rfl
  | false => simp [b.binding_dangling hx, hn]

theorem readBy_prune (q : Query) : b.prune.readBy (q.prune b.declares) = b.readBy q :=
  b.filterMap_bindings_prune (fun x => by cases x <;> rfl) (fun _ => rfl) q

theorem executionQuery_prune (q : Query) (c : Code) :
    b.prune.executionQuery (q.prune b.declares) c = b.executionQuery q c := by
  exact congrArg (fun l => (⟨q.mrn, c, Keyed.ofList l⟩ : ExecutionQuery))
    (b.filterMap_bindings_prune (fun x => by cases x <;> rfl) (fun _ => rfl) q)

theorem contributors_prune (starts : List Mrn) :
    b.prune.contributors starts = (b.contributors starts).map (Query.prune b.declares) := by
  have hmark : ∀ q : Query, (q.prune b.declares).code.map (·.id) = q.code.map (·.id) := fun _ => rfl
  have hsearch : preorder b.prune.queries (fun q => q.code.map (·.id)) b.prune.readBy [] starts =
      (preorder b.queries (fun q => q.code.map (·.id)) b.readBy [] starts).map
        fun x => (x.1, x.2.map (Query.prune b.declares)) :=
    preorder_map (Revision.pruning b.declares).query_mrn hmark b.readBy_prune b.queries [] starts
  rw [contributors, hsearch, List.filterMap_map, contributors, List.map_filterMap]
  rfl

theorem executionJob_prune (g : Graph) : b.prune.executionJob g = b.executionJob g := by
  simp only [executionJob, executionFrom, contributors_prune, List.filterMap_map, Function.comp_def, executionQuery_prune]
  rfl

end Bundle

namespace Setting

variable {s : Setting}

theorem executionEvents_pruned (g : Graph) : s.Sheds (s.bundle.executionEvents g) (s.bundle.prune.executionEvents g) := by
  have hquery : ∀ q : Query, s.Sheds (s.bundle.bindingEvents q) (s.bundle.prune.bindingEvents (q.prune s.bundle.declares)) := by
    intro q
    simp only [Bundle.bindingEvents, Bundle.bindings, List.filterMap_map, Query.prune, Function.comp_def, Bundle.binding_prune]
    induction q.properties with
    | nil => exact .nil
    | cons x rest ih =>
      cases hx : s.bundle.declares x.mrn with
      | false =>
        simp only [List.filterMap_cons, s.bundle.binding_dangling hx, List.filter_cons, hx, Bool.false_eq_true, ↓reduceIte]
        exact .drop (by simp [Bundle.dangles, Event.skipped, hx]) ih
      | true =>
        simp only [List.filter_cons, hx, ↓reduceIte, List.filterMap_cons]
        cases hb : s.bundle.binding x with
        | bound name v c => exact ih
        | undeclared m =>
          obtain rfl := s.bundle.undeclared_of_binding hb
          exact .keep (by simp [Bundle.dangles, Event.skipped, hx]) ih
        | codeless m => exact .keep rfl ih
  rw [Bundle.executionEvents, Bundle.executionEvents, Bundle.contributors_prune, List.flatMap_map]
  induction s.bundle.contributors g.starts with
  | nil => exact .nil
  | cons q rest ih => exact (hquery q).append ih

end Setting

namespace Bundle

variable (b : Bundle) (r : Request)

theorem isDeclared_prune : b.prune.isDeclared = b.isDeclared := by
  funext m
  rw [isDeclared, Keyed.has, find?_policies_prune, Option.isSome_map, isDeclared, Keyed.has]

theorem declares_of_isDeclared {m : Mrn} (h : b.isDeclared m = true) : b.declares m = true := by
  obtain ⟨p, hp⟩ := Option.isSome_iff_exists.mp h
  exact declares_policy hp

theorem assignmentEvents_prune : (b.setting r).Sheds (b.assignmentEvents r.target)
    (b.prune.assignmentEvents (r.prune b.declares).target) := by
  cases ht : r.target with
  | policy m =>
    simp only [Request.prune, ht, Target.prune, assignmentEvents]
    exact .nil
  | asset asset policies frameworks =>
    have hcomm : (policies.filter b.declares).filter (!b.isDeclared ·) =
        (policies.filter (!b.isDeclared ·)).filter b.declares := by
      rw [List.filter_filter, List.filter_filter]
      exact List.filter_congr fun _ _ => Bool.and_comm _ _
    simp only [Request.prune, ht, Target.prune, assignmentEvents, isDeclared_prune, hcomm]
    exact .of_filter fun m _ => by simp [dangles, Event.skipped, setting]

theorem checkScope_prune : b.prune.checkScope (r.prune b.declares) = b.checkScope r := by
  unfold checkScope
  cases ht : r.target with
  | policy m =>
    simp only [Request.prune, ht, Target.prune, Target.assigned, isDeclared_prune]
    cases hm : b.isDeclared m with
    | false => rfl
    | true =>
      have hkeep : [m].filter b.declares = [m] := by simp [b.declares_of_isDeclared hm]
      rw [← hkeep, b.scope_prune, hkeep]
      rfl
  | asset asset policies frameworks =>
    simp only [Request.prune, ht, Target.prune, Target.assigned, scope_prune]
    rfl

theorem draft_prune : (∃ e, b.draft r = .error e ∧ b.prune.draft (r.prune b.declares) = .error e) ∨
    ∃ root d d', b.draft r = .ok (root, d) ∧ b.prune.draft (r.prune b.declares) = .ok (root, d') ∧
      (b.setting r).Omits d d' := by
  unfold draft
  rw [setting_prune, isDeclared_prune]
  cases ht : r.target with
  | policy m =>
    simp only [Request.prune, ht, Target.prune, find?_policies_prune]
    cases hm : b.policies.find? m with
    | none => exact .inl ⟨_, rfl, rfl⟩
    | some p =>
      obtain rfl := Keyed.key_of_find? hm
      exact .inr ⟨_, _, _, rfl, rfl, Setting.draftPolicy_omits (s := b.setting r) (declares_policy hm)⟩
  | asset asset policies frameworks =>
    have hkeep : (policies.filter b.declares).filter b.isDeclared = policies.filter b.isDeclared := by
      rw [List.filter_filter]
      refine List.filter_congr fun m _ => ?_
      cases hm : b.isDeclared m with
      | false => rfl
      | true => exact b.declares_of_isDeclared hm
    simp only [Request.prune, ht, Target.prune, hkeep]
    exact .inr ⟨_, _, _, rfl, rfl, Setting.draftAsset_omits (s := b.setting r) asset
      (fun m hm => b.declares_of_isDeclared (List.mem_filter.mp hm).2) frameworks⟩

theorem finish_prune (scope : Scope) (root : Identity) {d d' : Draft} (h : (b.setting r).Omits d d') :
    b.prune.finish (r.prune b.declares) scope root d' = b.finish r scope root d := by
  simp only [finish, h.graph, h.magnitudes, executionJob_prune, Request.prune]

theorem run_sheds : (b.prune.run (r.prune b.declares)).1 = (b.run r).1 ∧
    (b.setting r).Sheds (b.run r).2 (b.prune.run (r.prune b.declares)).2 := by
  have hassigned := b.assignmentEvents_prune r
  simp only [run, checkScope_prune]
  cases hs : b.checkScope r with
  | error e => exact ⟨rfl, hassigned⟩
  | ok scope =>
    rcases b.draft_prune r with ⟨e, hd, hd'⟩ | ⟨root, d, d', hd, hd', h⟩
    · simp only [hd, hd']
      exact ⟨trivial, hassigned⟩
    · have hlast : (b.setting r).Sheds [.resolved (b.finish r scope root d).graph.jobs.length
          (b.finish r scope root d).execution.queries.size (b.finish r scope root d).checksum] _ := .keep rfl .nil
      simp only [hd, hd', b.finish_prune r scope root h, h.graph]
      exact ⟨trivial, ((hassigned.append h.log).append (Setting.executionEvents_pruned d.graph)).append hlast⟩

/-- Dangling references are recovered by omission. Without them a bundle resolves to the same or fails with the same error,
and the log differs in warnings about them and about the variants that they took out unheard. -/
theorem run_prune : (b.prune.run (r.prune b.declares)).1 = (b.run r).1 ∧
    (b.setting r).Sheds (b.run r).2 (b.prune.run (r.prune b.declares)).2 ∧
    ((∀ q ∈ b.queries.entries, ∀ m ∈ q.variants, b.declares m = true) →
      (b.prune.run (r.prune b.declares)).2.Sublist (b.run r).2) := by
  obtain ⟨hresult, hlog⟩ := b.run_sheds r
  exact ⟨hresult, hlog, hlog.sublist⟩

end Bundle

def ghostBundle : Bundle where
  policies := .ofList [{ mrn := "p", groups := [{ checks := [{ mrn := "k" }] },
    { type := .disable, checks := [{ mrn := "ghost" }] }] }]
  queries := .ofList [{ mrn := "k", variants := ["x", "ghost"] }, { mrn := "x", code := some { id := "cx" } }]

theorem ghostBundle_misses : ¬(ghostBundle.prune.run ((policyRequest "p").prune ghostBundle.declares)).2.Sublist
    (ghostBundle.run (policyRequest "p")).2 := by
  have hnew : Event.undeclaredVariant "k" "ghost" ∈
      (ghostBundle.prune.run ((policyRequest "p").prune ghostBundle.declares)).2 := by
    decide +kernel
  have hold : Event.undeclaredVariant "k" "ghost" ∉ (ghostBundle.run (policyRequest "p")).2 := by
    decide +kernel
  exact fun h => hold (h.subset hnew)

end Compliance
