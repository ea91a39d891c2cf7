import Compliance.Proofs.Naming
import Compliance.Proofs.QueryJobs
import Compliance.Proofs.Roles

namespace Compliance

def Job.Runs (j : Job) (role : Role) (id : CodeId) : Prop := j.type = role.jobType ∧ ∃ m, j.origin = some (m, id)

namespace Job

variable {siblings : CodeId → List Mrn} {role : Role} {id : CodeId} {j : Job}

theorem sharing_runs : (j.sharing siblings).Runs role id ↔ j.Runs role id := by
  obtain ⟨ms, hms⟩ := j.sharing_mrns siblings
  rw [hms]
  rfl

theorem Runs.sharing_check (h : j.Runs .check id) : j.sharing siblings = j := by
  unfold sharing
  split
  · rename_i ht _
    cases ht.symm.trans h.1
  · rfl

theorem Runs.sharing_data (h : j.Runs .data id) : (j.sharing siblings).mrns = appendNew [] (siblings id) := by
  obtain ⟨ht, m, ho⟩ := h
  simp only [sharing, ht, ho, Role.jobType]

end Job

theorem Graph.mrns_eq_of_runs {g : Graph} {id : CodeId} {j l : Job} (hj : j ∈ g.shareMrns.jobs) (hl : l ∈ g.shareMrns.jobs)
    (hjruns : j.Runs .data id) (hlruns : l.Runs .data id) : j.mrns = l.mrns := by
  obtain ⟨j₀, -, rfl⟩ := mem_shareMrns.mp hj
  obtain ⟨l₀, -, rfl⟩ := mem_shareMrns.mp hl
  rw [(Job.sharing_runs.mp hjruns).sharing_data, (Job.sharing_runs.mp hlruns).sharing_data]

namespace Setting

def Codes (s : Setting) (roots : List Mrn) (role : Role) (id : CodeId) (q : Query) : Prop :=
  s.Materialized roots role q ∧ q.isComposite = false ∧ ∃ c, q.code = some c ∧ c.id = id

def AliasOf (s : Setting) (roots : List Mrn) (role : Role) (q : Query) (m : Mrn) : Prop :=
  m = q.mrn ∨ ∃ k, s.Materialized roots role k ∧ s.Variant k q ∧ m = k.mrn

variable {s : Setting} {root : Identity} {roots path : List Mrn} {start d : Draft} {log : List Edit} {role role' : Role}
  {q q' k e : Query} {i : Identity} {m : Mrn} {id : CodeId} {j l : Job}

theorem Codes.eq_of_identity (h : s.Codes roots role id q) (hq' : s.Materialized roots role' q')
    (hi : role.identity q = role'.identity q') : role = role' ∧ s.Codes roots role id q' := by
  obtain ⟨hq, hn, c, hc, rfl⟩ := h
  rcases hq.eq_of_identity hq'.mem hi with ⟨-, hcomposite⟩ | ⟨rfl, -, hn', hcode⟩
  · cases hn.symm.trans hcomposite
  · obtain ⟨c', hc'⟩ := hq'.code hn'
    rw [hc, hc', Option.map_some, Option.map_some] at hcode
    exact ⟨rfl, hq', hn', c', hc', Option.some.inj hcode⟩

theorem Codes.check_identity (h : s.Codes roots .check id q) : Role.check.identity q = .code id := by
  obtain ⟨c, hc, rfl⟩ := h.2.2
  exact Role.identity_of_code h.2.1 hc

theorem Trail.exists_above (ht : s.Trail ([], e) (path, q)) (hm : path.head? = some m) :
    ∃ k above, k.mrn = m ∧ s.Trail ([], e) (above, k) ∧ k.mrn ∉ above ∧ s.Variant k q := by
  rcases Relation.ReflTransGen.cases_tail ht with h | ⟨⟨above, k⟩, htk, hp, hv, hpath⟩
  · cases (Prod.mk.inj h).1
    cases hm
  · obtain rfl := hpath
    exact ⟨k, above, Option.some.inj hm, htk, hp, hv⟩

theorem Codes.exists_leaf_iff {c : Code} (h : s.Codes roots role id q) (hc : q.code = some c) :
    (∃ e k, s.Referenced roots role e ∧ s.Draws role ([], e) (.leaf role q c k) ∧ m ∈ q.mrn :: k.toList) ↔
      s.AliasOf roots role q m := by
  constructor
  · rintro ⟨e, k, he, hdraw, hm⟩
    rcases List.mem_cons.mp hm with rfl | hm
    · exact .inl rfl
    · cases hdraw with
      | leaf ht _ _ =>
        obtain ⟨k, above, rfl, htk, hp, hv⟩ := ht.exists_above (Option.mem_toList.mp hm)
        exact .inr ⟨k, (materialized_of_variant he htk hp hv (.code h.2.1 hc)).1, hv, rfl⟩
  · rintro (rfl | ⟨k, hk, hv, rfl⟩)
    · obtain ⟨e, path, he, ht, -⟩ := h.1
      exact ⟨e, _, he, .leaf ht h.2.1 hc, List.mem_cons_self⟩
    · obtain ⟨e, path, -, he, ht, hp, -, -⟩ := hk.exists_variant hv.isComposite
      exact ⟨e, _, he, .leaf (ht.tail ⟨hp, hv, rfl⟩) h.2.1 hc, List.mem_cons_of_mem _ (by simp)⟩

namespace Survey

variable (h : Survey s root roots start d log) (hd : s.bundle.Distinct) (hr : s.bundle.Apart root)
include h hd hr

theorem mem_mrnsOf_iff (hq : s.Codes roots role id q) : m ∈ d.graph.mrnsOf (role.identity q) ↔
    ∃ q', s.Codes roots role id q' ∧ role.identity q' = role.identity q ∧ s.AliasOf roots role q' m := by
  have hblank : start.graph.mrnsOf (role.identity q) = [] :=
    Graph.mrnsOf_eq_nil fun hi => identity_ne_root hr hq.1.mem ((h.blank.has _).mp hi)
  rw [h.graph, Graph.drawAll_mrnsOf, hblank, mem_appendNew, List.mem_flatMap]
  constructor
  · rintro (hm | ⟨e, he, hm⟩)
    · cases hm
    · cases h.sound e he with
      | @query role' x e hx hdraw =>
        cases hdraw with
        | @leaf path q' c ht hn hc =>
          obtain ⟨hi, hnames⟩ := List.mem_ite_nil_right.mp hm
          have hleaf : role'.identity q' = Draft.leafIdentity role' q' c := Role.identity_of_code hn hc
          have hq' : s.Materialized roots role' q' := ⟨x, path, hx, ht, .code hn hc⟩
          obtain ⟨rfl, hcodes⟩ := hq.eq_of_identity hq' (hleaf.trans hi).symm
          exact ⟨q', hcodes, hleaf.trans hi, (hcodes.exists_leaf_iff hc).mp ⟨x, _, hx, .leaf ht hn hc, hnames⟩⟩
        | @composite path q' ht hp hl =>
          obtain ⟨⟨-, hi⟩, -⟩ := List.mem_ite_nil_right.mp hm
          obtain ⟨v, hv, -⟩ := variantLinks_ne_nil.mp hl
          obtain rfl := eq_of_mrn hq.1.mem (Trail.mem ht hx.mem) (Role.mrn_of_identity hi.symm)
          cases hq.2.1.symm.trans hv.isComposite
      | structural sc ls hname hk _ =>
        obtain ⟨⟨-, hi⟩, -⟩ := List.mem_ite_nil_right.mp hm
        rw [← Role.mrn_of_identity hi.symm] at hname
        exact absurd (hd.kind_eq hname (Bundle.query_named hq.1.mem)) hk
      | _ => cases hm
  · rintro ⟨q', hq', hi, hm⟩
    obtain ⟨c, hc, -⟩ := hq'.2.2
    obtain ⟨e, k, he, hdraw, hm⟩ := (hq'.exists_leaf_iff hc).mpr hm
    refine .inr ⟨_, h.complete role e _ he hdraw, ?_⟩
    rwa [Edit.names, if_pos ((Role.identity_of_code hq'.2.1 hc).symm.trans hi)]

theorem runs_iff (hj : j ∈ d.graph.jobs) :
    j.Runs role id ↔ ∃ q, s.Codes roots role id q ∧ role.identity q = j.identity := by
  constructor
  · rintro ⟨ht, m, ho⟩
    obtain ⟨role', q, c, hlive, hn, hc, hi, rfl⟩ := (h.backed_iff_live j.identity id).mp ⟨m, j, hj, rfl, ho⟩
    have htype := h.leaf_typed hd hr hlive.mem hn hc ⟨j, hj, hi, rfl, rfl⟩
    obtain rfl := Role.jobType_inj (ht.symm.trans htype)
    have hq : s.Codes roots role c.id q := ⟨(materialized_leaf_iff hn hc).mpr hlive, hn, c, hc, rfl⟩
    exact ⟨q, hq, (Role.identity_of_code hq.2.1 hc).trans hi.symm⟩
  · rintro ⟨q, hq, hi⟩
    obtain ⟨c, hc, rfl⟩ := hq.2.2
    have hn := hq.2.1
    have hleaf := (Role.identity_of_code hq.2.1 hc).symm.trans hi
    have hlive := (materialized_leaf_iff hn hc).mp hq.1
    obtain ⟨m, l, hl, hli, ho⟩ := (h.backed_iff_live j.identity c.id).mpr ⟨role, q, c, hlive, hn, hc, hleaf.symm, rfl⟩
    obtain rfl := h.unique.eq_of_mem hl hj hli
    exact ⟨h.leaf_typed hd hr hlive.mem hn hc ⟨l, hl, hleaf.symm, rfl, rfl⟩, m, ho⟩

theorem exists_runs (hq : s.Codes roots role id q) : ∃ j ∈ d.graph.jobs, j.identity = role.identity q ∧ j.Runs role id := by
  obtain ⟨j, hj, hi, -⟩ := h.materialized_has hq.1
  exact ⟨j, hj, hi, (h.runs_iff hd hr hj).mpr ⟨q, hq, hi.symm⟩⟩

theorem mem_mrns_iff (hj : j ∈ d.graph.jobs) (hruns : j.Runs role id) : m ∈ j.mrns ↔
    ∃ q, s.Codes roots role id q ∧ role.identity q = j.identity ∧ s.AliasOf roots role q m := by
  obtain ⟨q, hq, hi⟩ := (h.runs_iff hd hr hj).mp hruns
  rw [← Graph.mrnsOf_eq h.unique hj, ← hi]
  exact h.mem_mrnsOf_iff hd hr hq

theorem mem_siblingMrns_iff : m ∈ d.graph.siblingMrns id ↔ ∃ q, s.Codes roots .data id q ∧ s.AliasOf roots .data q m := by
  have hsibling : m ∈ d.graph.siblingMrns id ↔ ∃ j ∈ d.graph.jobs, j.Runs .data id ∧ m ∈ j.mrns := by
    simp only [Graph.siblingMrns, List.mem_flatMap, List.mem_filter, Bool.and_eq_true, beq_iff_eq, Option.any_eq_true,
      and_assoc, Job.Runs]
    grind [Role.jobType]
  rw [hsibling]
  constructor
  · rintro ⟨j, hj, hruns, hm⟩
    obtain ⟨q, hq, -, hm⟩ := (h.mem_mrns_iff hd hr hj hruns).mp hm
    exact ⟨q, hq, hm⟩
  · rintro ⟨q, hq, hm⟩
    obtain ⟨j, hj, hi, hruns⟩ := h.exists_runs hd hr hq
    exact ⟨j, hj, hruns, (h.mem_mrns_iff hd hr hj hruns).mpr ⟨q, hq, hi.symm, hm⟩⟩

omit hd hr in
theorem mrns_nodup (hj : j ∈ d.graph.jobs) (hi : j.identity ≠ root) : j.mrns.Nodup := by
  have hblank : start.graph.mrnsOf j.identity = [] := Graph.mrnsOf_eq_nil fun hs => hi ((h.blank.has _).mp hs)
  rw [← Graph.mrnsOf_eq h.unique hj, h.graph, Graph.drawAll_mrnsOf, hblank]
  exact appendNew_nodup List.nodup_nil

theorem exists_check (hq : s.Codes roots .check id q) : ∃ j ∈ d.graph.shareMrns.jobs, j.identity = .code id ∧
    j.Runs .check id ∧ ∀ l ∈ d.graph.shareMrns.jobs, l.Runs .check id → l = j := by
  have hunique : d.graph.shareMrns.Unique := (Graph.shareMrns_linked h.grown.linked).unique
  obtain ⟨j, hj, hi, hruns⟩ := h.exists_runs hd hr hq
  have hmem := Graph.mem_shareMrns.mpr ⟨j, hj, rfl⟩
  refine ⟨_, hmem, ?_, Job.sharing_runs.mpr hruns, fun l hl hlruns => hunique.eq_of_mem hl hmem ?_⟩
  · rw [Job.sharing_identity, hi, hq.check_identity]
  · obtain ⟨l₀, hl₀, rfl⟩ := Graph.mem_shareMrns.mp hl
    obtain ⟨q', hq', hi'⟩ := (h.runs_iff hd hr hl₀).mp (Job.sharing_runs.mp hlruns)
    rw [Job.sharing_identity, Job.sharing_identity, hi, ← hi', hq.check_identity, hq'.check_identity]

theorem exists_data (hq : s.Materialized roots .data q) : ∃ j ∈ d.graph.shareMrns.jobs, j.identity = .mrn q.mrn ∧
    j.type.isQuery = true ∧ (¬s.TwoRoled roots q → j.type = .dataQuery) ∧ (∀ id, s.Codes roots .data id q → j.Runs .data id) ∧
      ∀ l ∈ d.graph.shareMrns.jobs, l.identity = .mrn q.mrn → l = j := by
  have hunique : d.graph.shareMrns.Unique := (Graph.shareMrns_linked h.grown.linked).unique
  obtain ⟨j, hj, hi, hquery⟩ := (h.holds_isQuery_iff hd hr).mpr ⟨.data, q, hq, rfl⟩
  have hmem := Graph.mem_shareMrns.mpr ⟨j, hj, rfl⟩
  have hmrn : (j.sharing d.graph.siblingMrns).identity = .mrn q.mrn := by
    rw [Job.sharing_identity, hi, Role.data_identity]
  have htype : (j.sharing d.graph.siblingMrns).type = j.type := by
    obtain ⟨ms, hms⟩ := j.sharing_mrns d.graph.siblingMrns
    rw [hms]
  refine ⟨_, hmem, hmrn, htype ▸ hquery, fun hn => ?_, fun id hcodes => ?_, fun l hl hli => ?_⟩
  · obtain ⟨l, hl, hli, ht⟩ := h.holds_of_not_twoRoled hd hr hq hn
    obtain rfl := h.unique.eq_of_mem hj hl (hi.trans hli.symm)
    exact htype.trans ht
  · exact Job.sharing_runs.mpr ((h.runs_iff hd hr hj).mpr ⟨q, hcodes, hi.symm⟩)
  · exact hunique.eq_of_mem hl hmem (hli.trans hmrn.symm)

theorem mrns_of_runs (hj : j ∈ d.graph.shareMrns.jobs) (hruns : j.Runs role id) : j.mrns.Nodup ∧
    ∀ m, m ∈ j.mrns ↔ ∃ q, s.Codes roots role id q ∧ s.AliasOf roots role q m := by
  obtain ⟨j₀, hj₀, rfl⟩ := Graph.mem_shareMrns.mp hj
  have hruns₀ := Job.sharing_runs.mp hruns
  obtain ⟨q, hq, hi⟩ := (h.runs_iff hd hr hj₀).mp hruns₀
  cases role with
  | check =>
    rw [hruns₀.sharing_check]
    refine ⟨h.mrns_nodup hj₀ (hi ▸ identity_ne_root hr hq.1.mem), fun m => ?_⟩
    rw [h.mem_mrns_iff hd hr hj₀ hruns₀]
    constructor
    · rintro ⟨q', hq', -, hm⟩
      exact ⟨q', hq', hm⟩
    · rintro ⟨q', hq', hm⟩
      exact ⟨q', hq', by rw [← hi, hq.check_identity, hq'.check_identity], hm⟩
  | data =>
    rw [hruns₀.sharing_data]
    refine ⟨appendNew_nodup List.nodup_nil, fun m => ?_⟩
    rw [mem_appendNew, h.mem_siblingMrns_iff hd hr]
    simp only [List.not_mem_nil, false_or]

end Survey

/-- What the jobs of queries stand for. Checks of one code share one job, and data queries have one each, of their role
unless they are composites with both; each job with code lists once whatever is an alias of a query with the code in
its role. -/
structure Aliased (s : Setting) (roots : List Mrn) (g : Graph) : Prop where
  check : ∀ q id, s.Codes roots .check id q → ∃ j ∈ g.jobs, j.identity = .code id ∧ j.Runs .check id ∧
    ∀ l ∈ g.jobs, l.Runs .check id → l = j
  data : ∀ q, s.Materialized roots .data q → ∃ j ∈ g.jobs, j.identity = .mrn q.mrn ∧ j.type.isQuery = true ∧
    (¬s.TwoRoled roots q → j.type = .dataQuery) ∧ (∀ id, s.Codes roots .data id q → j.Runs .data id) ∧
      ∀ l ∈ g.jobs, l.identity = .mrn q.mrn → l = j
  mrns : ∀ role id, ∀ j ∈ g.jobs, j.Runs role id → j.mrns.Nodup ∧
    ∀ m, m ∈ j.mrns ↔ ∃ q, s.Codes roots role id q ∧ s.AliasOf roots role q m
  siblings : ∀ id, ∀ j ∈ g.jobs, ∀ l ∈ g.jobs, j.Runs .data id → l.Runs .data id → j.mrns = l.mrns

end Setting

theorem Bundle.resolve_aliased {b : Bundle} {r : Request} {res : Resolution} (hb : b.Distinct)
    (h : b.resolve r = .ok res) : (b.setting r).Aliased r.target.assigned res.graph := by
  obtain ⟨hr, start, d, log, hs, hg⟩ := exists_survey_of_resolve hb h
  rw [hg]
  exact ⟨fun _ _ => hs.exists_check hb hr, fun _ => hs.exists_data hb hr, fun _ _ _ => hs.mrns_of_runs hb hr,
    fun _ _ hj _ hl => Graph.mrns_eq_of_runs hj hl⟩

theorem twofoldBundle_aliased : twofoldBundle.Distinct ∧ ∃ res, twofoldBundle.resolve auditRequest = .ok res ∧
    (twofoldBundle.setting auditRequest).Aliased ["p"] res.graph := by
  have hb : twofoldBundle.Distinct := by decide +kernel
  have hs : (twofoldBundle.scope ["p"]).covers Keyed.empty = true := by decide +kernel
  have h : twofoldBundle.resolve auditRequest = .ok _ := Bundle.resolve_asset hs
  exact ⟨hb, _, h, Bundle.resolve_aliased hb h⟩

theorem twofoldBundle_lacks_data : twofoldBundle.Distinct ∧ ∃ res, twofoldBundle.resolve auditRequest = .ok res ∧
    ∃ q, (twofoldBundle.setting auditRequest).Materialized ["p"] .data q ∧ q.mrn = "k" ∧
      ¬∃ j ∈ res.graph.jobs, j.identity = .mrn q.mrn ∧ j.type = .dataQuery := by
  have hb : twofoldBundle.Distinct := by decide +kernel
  have hs : (twofoldBundle.scope ["p"]).covers Keyed.empty = true := by decide +kernel
  have h : twofoldBundle.resolve auditRequest = .ok _ := Bundle.resolve_asset hs
  refine ⟨hb, _, h, _, twofoldBundle_materialized .data, rfl, ?_⟩
  decide +kernel

end Compliance
