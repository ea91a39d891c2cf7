import Compliance.Proofs.Adoption
import Compliance.Proofs.Annexes

namespace Compliance

namespace Bundle

structure Ground (b : Bundle) (d₀ : Draft) : Prop where
  queries : ∀ role m i, (d₀.index role).lookup m = some i → ∀ j ∈ d₀.graph.jobs, j.identity = i → j.type.isQuery = true
  free : ∀ (t : Tier) m, (t.kind, m) ∈ b.names → ¬d₀.graph.Has (.mrn m)

structure Furnished (b : Bundle) (root : Identity) (d₀ d : Draft) : Prop where
  index : ∀ role, d.index role = d₀.index role
  settled : ∀ (t : Tier) m, (m, true) ∈ d.ledger t.jobType → (t.kind, m) ∈ b.names
  magnitudes : d.magnitudes = d₀.magnitudes
  graph : b.Annexed root d₀.graph d.graph

def Furnishes {β : Type} (b : Bundle) (root : Identity) (d₀ : Draft) (Q : β → Prop) (f : Draft → β × Draft) : Prop :=
  ∀ d, b.Furnished root d₀ d → b.Furnished root d₀ (f d).2 ∧ Q (f d).1

variable {b : Bundle} {root : Identity} {d₀ d : Draft} {t u : Tier} {m : Mrn} {links : List Link}

namespace Furnished

theorem events (h : b.Furnished root d₀ d) (xs : List Event) : b.Furnished root d₀ { d with events := xs } where
  index role := (by cases role <;> rfl : Draft.index { d with events := xs } role = d.index role).trans (h.index role)
  settled t m hm := h.settled t m (by cases t <;> exact hm)
  magnitudes := h.magnitudes
  graph := h.graph

theorem note (h : b.Furnished root d₀ d) (x : Event) : b.Furnished root d₀ (d.note x) := h.events _

theorem conclude (hg : b.Ground d₀) (h : b.Furnished root d₀ d) (hm : links ≠ [] → (t.kind, m) ∈ b.names)
    (hl : ∀ l ∈ links, d₀.graph.Bears t l.1) : b.Furnished root d₀ (d.conclude t.jobType m .average links).2 ∧
      ((d.conclude t.jobType m .average links).1 = true → (t.kind, m) ∈ b.names) := by
  have hmade : (!links.isEmpty) = true → (t.kind, m) ∈ b.names := fun he => hm (by simpa using he)
  have hev : ∀ e ∈ concluding t.jobType m .average links, b.Evidential root e := concluding_evidential hm
  rw [conclude_eq]
  refine ⟨⟨fun role => ?_, fun u n hn => ?_, ?_, ?_⟩, hmade⟩
  · rw [Draft.replay_index d hev]
    exact h.index role
  · rw [concluding_tier] at hn
    split at hn
    · rename_i hu
      rcases List.mem_cons.mp hn with he | hn
      · obtain ⟨hnm, hmade'⟩ := Prod.mk.inj he
        rw [hu, hnm]
        exact hmade hmade'.symm
      · exact h.settled u n hn
    · exact h.settled u n hn
  · rw [Draft.replay_magnitudes_of_forall fun e he => (hev e he).weighed]
    exact h.magnitudes
  · rw [Draft.replay_graph]
    by_cases hn : links = []
    · rw [hn]
      exact h.graph
    · have hfree := hg.free t m (hm hn)
      have hdraw : d.graph.drawAll (concluding t.jobType m .average links) =
          d.graph.raise (.mrn m) t.jobType .average [m] links := by
        simp [concluding, hn, Edit.draw]
      rw [hdraw]
      exact h.graph.raise (hm hn) hfree hl .average [m]

theorem hang (hg : b.Ground d₀) (h : b.Furnished root d₀ d) (hm : (Kind.framework, m) ∈ b.names) :
    b.Furnished root d₀ { d with graph := d.graph.connect root (.mrn m) .ignored } where
  index role := (by cases role <;> rfl : _ = d.index role).trans (h.index role)
  settled t n hn := h.settled t n (by cases t <;> exact hn)
  magnitudes := h.magnitudes
  graph := h.graph.hang hm (hg.free .framework m hm)

end Furnished

namespace Furnishes

theorem gather {α β : Type} {Q : β → Prop} {step : α → Draft → Option β × Draft} {l : List α}
    (h : ∀ a ∈ l, b.Furnishes root d₀ (fun o => ∀ x ∈ o, Q x) (step a)) :
    b.Furnishes root d₀ (fun xs => ∀ x ∈ xs, Q x) (gather step l) := by
  induction l with
  | nil => exact fun d hd => ⟨hd, by simp [Compliance.gather]⟩
  | cons a rest ih =>
    intro d hd
    obtain ⟨hfirst, hout⟩ := h a List.mem_cons_self d hd
    obtain ⟨hlast, houts⟩ := ih (fun x hx => h x (List.mem_cons_of_mem _ hx)) _ hfirst
    rw [gather_cons]
    refine ⟨hlast, fun x hx => ?_⟩
    rcases List.mem_append.mp hx with hx | hx
    · exact hout x (Option.mem_toList.mp hx)
    · exact houts x hx

theorem activated (hg : b.Ground d₀) {job : Draft → Bool × Draft} (a : Activation)
    (h : b.Furnishes root d₀ (fun made => made = true → (u.kind, m) ∈ b.names) job) :
    b.Furnishes root d₀ (fun o : Option Link => ∀ l ∈ o, d₀.graph.Bears t l.1) fun d =>
      if a = .absent then (none, d)
      else
        let (made, d) := job d
        (if made then some (.mrn m, Impact.of a .unspecified none) else none, d) := by
  intro d hd
  obtain ⟨hjob, hmade⟩ := h d hd
  by_cases ha : a = .absent
  · simp only [ha, ↓reduceIte]
    exact ⟨hd, nofun⟩
  · simp only [ha, ↓reduceIte]
    refine ⟨hjob, fun l hl => ?_⟩
    obtain ⟨hm, hl⟩ := Option.ite_none_right_eq_some.mp hl
    rw [← Option.some.inj hl]
    exact Graph.bears_of_not_has (hg.free u m (hmade hm))

theorem linked (hg : b.Ground d₀) (role : Role) (r : QueryRef) :
    b.Furnishes root d₀ (fun o : Option Link => ∀ l ∈ o, d₀.graph.Bears .control l.1) fun d => (d.linked role r, d) := by
  intro d hd
  refine ⟨hd, fun l hl => ?_⟩
  obtain ⟨-, hl⟩ := Option.ite_none_left_eq_some.mp hl
  obtain ⟨i, hi, rfl⟩ := Option.map_eq_some_iff.mp hl
  rw [hd.index] at hi
  exact fun j hj he => ⟨hg.queries role r.mrn i hi j hj he, rfl⟩

end Furnishes

end Bundle

namespace ControlScope

variable {c : ControlScope} {b : Bundle} {root : Identity} {d₀ : Draft}

theorem control_furnishes (hg : b.Ground d₀) (hc : ∀ e ∈ c.evidence, e ∈ b.evidence) (path : List Mrn) (m : Mrn) :
    b.Furnishes root d₀ (fun made => made = true → (Kind.control, m) ∈ b.names) (c.control path m) := by
  intro d h
  cases hl : d.controls.lookup m with
  | some made =>
    rw [control_settled hl]
    exact ⟨h, fun hm => h.settled .control m (hm ▸ mem_of_lookup hl)⟩
  | none =>
    by_cases hm : m ∈ path
    · rw [control_cut hl hm]
      exact ⟨h.note _, nofun⟩
    · rcases he : c.evidence.filter (·.mrn == m) with _ | ⟨e, rest⟩
      · rw [control_bare hl hm he]
        have hnone : ([] : List Link) ≠ [] → (Kind.control, m) ∈ b.names := fun hn => absurd rfl hn
        exact h.conclude (t := .control) hg hnone nofun
      · have hmem : e ∈ c.evidence.filter (·.mrn == m) := by
          rw [he]
          exact List.mem_cons_self
        obtain ⟨hev, hem⟩ := List.mem_filter.mp hmem
        obtain rfl : e.mrn = m := by simpa using hem
        have hname : (Kind.control, e.mrn) ∈ b.names := Bundle.mem_names_control.mpr ⟨e, hc e hev, rfl⟩
        have below : ∀ n, b.Furnishes root d₀ (fun made => made = true → (Kind.control, n) ∈ b.names)
            (c.control (e.mrn :: path) n) := fun n => control_furnishes hg hc (e.mrn :: path) n
        have links : ∀ l ∈ (e :: rest).flatMap ControlMap.links,
            b.Furnishes root d₀ (fun o : Option Link => ∀ l ∈ o, d₀.graph.Bears .control l.1)
              (c.follow (fun n d => c.control (e.mrn :: path) n d) l) := by
          intro l _
          cases l with
          | query role r => exact .linked hg role r
          | control n => exact .activated (u := .control) hg (c.standing n) (below n)
        obtain ⟨hd, hlinks⟩ := Bundle.Furnishes.gather (Q := fun l : Link => d₀.graph.Bears .control l.1) links d h
        rw [control_first hl hm he]
        exact hd.conclude (t := .control) hg (fun _ => hname) hlinks
termination_by unvisited ControlMap.mrn c.evidence path
decreasing_by
  exact unvisited_cons_lt hev hm

end ControlScope

namespace Setting

variable {s : Setting} {c : ControlScope} {root : Identity} {d₀ : Draft}

theorem framework_furnishes (hg : s.bundle.Ground d₀) (hc : ∀ e ∈ c.evidence, e ∈ s.bundle.evidence) (path : List Mrn)
    (m : Mrn) : s.bundle.Furnishes root d₀ (fun made => made = true → (Kind.framework, m) ∈ s.bundle.names)
      (s.framework c path m) := by
  intro d h
  cases hl : d.frameworks.lookup m with
  | some made =>
    rw [framework_settled hl]
    exact ⟨h, fun hm => h.settled .framework m (hm ▸ mem_of_lookup hl)⟩
  | none =>
    by_cases hm : m ∈ path
    · rw [framework_cut hl hm]
      exact ⟨h.note _, nofun⟩
    · obtain hf | ⟨f, hf⟩ := Option.eq_none_or_eq_some (s.bundle.frameworks.find? m)
      · rw [framework_undeclared hl hm hf]
        exact ⟨h, nofun⟩
      · obtain rfl := Keyed.key_of_find? hf
        have hname : (Kind.framework, f.mrn) ∈ s.bundle.names := Bundle.mem_names_framework.mpr ⟨f, hf⟩
        have below : ∀ n, s.bundle.Furnishes root d₀ (fun made => made = true → (Kind.framework, n) ∈ s.bundle.names)
            (s.framework c (f.mrn :: path) n) := fun n => framework_furnishes hg hc (f.mrn :: path) n
        have controls : ∀ n ∈ (f.contentGroups s.now).flatMap (·.controls),
            s.bundle.Furnishes root d₀ (fun o : Option Link => ∀ l ∈ o, d₀.graph.Bears .framework l.1)
              (c.link (c.control []) n) :=
          fun n _ => .activated (u := .control) hg (c.standing n) (c.control_furnishes hg hc [] n)
        have dependencies : ∀ r ∈ f.dependencies,
            s.bundle.Furnishes root d₀ (fun o : Option Link => ∀ l ∈ o, d₀.graph.Bears .framework l.1)
              (dependencyStep (s.framework c (f.mrn :: path)) r) :=
          fun r _ => .activated (u := .framework) hg r.action.activation (below r.mrn)
        obtain ⟨hd, hcontrols⟩ := Bundle.Furnishes.gather (Q := fun l : Link => d₀.graph.Bears .framework l.1) controls d h
        obtain ⟨hd', hbelow⟩ := Bundle.Furnishes.gather (Q := fun l : Link => d₀.graph.Bears .framework l.1) dependencies _ hd
        rw [framework_first hl hm hf]
        refine hd'.conclude (t := .framework) hg (fun _ => hname) fun l hl => ?_
        rcases List.mem_append.mp hl with hl | hl
        · exact hcontrols l hl
        · exact hbelow l hl
termination_by unvisited Framework.mrn s.bundle.frameworks.entries path
decreasing_by
  exact unvisited_cons_lt (Keyed.mem_of_find? hf) hm

variable {d : Draft}

theorem adopt_furnished (hg : s.bundle.Ground d₀) (hc : ∀ e ∈ c.evidence, e ∈ s.bundle.evidence) (m : Mrn)
    (h : s.bundle.Furnished root d₀ d) : s.bundle.Furnished root d₀ (s.adopt root c d m) := by
  obtain ⟨hd, hmade⟩ := framework_furnishes hg hc [] m d h
  unfold adopt
  split
  rename_i made d' heq
  rw [heq] at hd hmade
  split
  · rename_i hm
    exact hd.hang hg (hmade hm)
  · exact hd

theorem addFrameworks_furnished (hg : s.bundle.Ground d) (assigned : List Mrn) (hd : ∀ t : Tier, d.ledger t.jobType = []) :
    s.bundle.Furnished root d (s.addFrameworks root assigned d) := by
  have hstart : s.bundle.Furnished root d d :=
    ⟨fun _ => rfl, fun t m hm => by simp [hd] at hm, rfl, .refl ..⟩
  rw [addFrameworks_eq]
  have hfold : ∀ (ms : List Mrn) d', s.bundle.Furnished root d d' →
      s.bundle.Furnished root d (ms.foldl (s.adopt root (s.scopeOf assigned d)) d') := by
    intro ms
    induction ms with
    | nil => exact fun _ h => h
    | cons m rest ih => exact fun d' h => ih _ (adopt_furnished hg (scopeOf_evidence assigned) m h)
  exact hfold assigned _ (hstart.events _)

variable {ms : List Mrn} {log : List Edit} {asset : Mrn}

theorem Assigned.job (ha : Assigned s ms (.start assetRoot .unspecified asset) ms log d) {j : Job} (hj : j ∈ d.graph.jobs) :
    j.identity = assetRoot ∧ j.type = .root ∨
      (∃ role : Role, ∃ q ∈ s.bundle.queries.entries, j.identity = role.identity q ∧ j.type = role.jobType) ∨
        ∃ k m, j.identity = .mrn m ∧ (k, m) ∈ s.bundle.names ∧
          (k = .riskFactor ∧ j.type = .riskFactor ∨ k = .policy ∧ j.type = .policy) := by
  have ht : d.graph.Typed j.identity j.type j.scoring := ⟨j, hj, rfl, rfl, rfl⟩
  rw [ha.told.graph] at ht
  rcases Graph.typed_of_drawAll (start_blank assetRoot .unspecified asset).linked.unique ht with hroot | ⟨e, he, hm⟩
  · obtain ⟨hi, hroot, -⟩ := start_holds.mp hroot
    exact .inl ⟨hi, hroot.symm⟩
  · rcases ha.told.makes he hm with hq | ⟨m, hi, hn, hk, -⟩ | ⟨m, hi, hn, hk, -⟩
    · exact .inr (.inl hq)
    · exact .inr (.inr ⟨_, m, hi, hn, .inl ⟨rfl, hk⟩⟩)
    · exact .inr (.inr ⟨_, m, hi, hn, .inr ⟨rfl, hk⟩⟩)

theorem Assigned.ground (h : s.Proper) (ha : Assigned s ms (.start assetRoot .unspecified asset) ms log d) :
    s.bundle.Ground d where
  queries := by
    intro role m i hi j hj hji
    obtain ⟨q, e, hq, hdraw, hent⟩ := ha.lookup_iff.mp hi
    obtain ⟨-, q', hq', -, rfl⟩ := hdraw.entered hq.mem hent
    rcases ha.job hj with ⟨hroot, -⟩ | ⟨role', q'', -, -, ht⟩ | ⟨k, n, hn, hname, hk⟩
    · exact absurd (hji.symm.trans hroot) (identity_ne_root h.distinct.apart_root hq')
    · rw [ht]
      cases role' <;> rfl
    · have hqn := Role.mrn_of_identity (hji.symm.trans hn)
      have hkind := h.distinct.kind_eq hname (hqn ▸ Bundle.query_named hq')
      rcases hk with ⟨rfl, -⟩ | ⟨rfl, -⟩ <;> cases hkind
  free := by
    intro t m hm hhas
    have hmem := (ha.told.evident h.distinct).new t m hm hhas
    simp [ha.bare t] at hmem

theorem Assigned.extends (h : s.Proper) (ha : Assigned s ms (.start assetRoot .unspecified asset) ms log d) {g : Graph}
    (hg : s.bundle.Annexed assetRoot d.graph g) (hl : g.Linked assetRoot) :
    ∃ kids tellers annex, d.graph.Extends assetRoot g kids tellers annex := by
  obtain ⟨kids, tellers, annex, rfl, hannex⟩ := hg
  refine ⟨kids, tellers, annex, hannex.extends h.distinct hl ha.grown.linked.hasRoot.has (ha.ground h).free ?_⟩
  intro j hj
  rcases ha.job hj with ⟨-, ht⟩ | ⟨role, q, -, -, ht⟩ | ⟨k, m, -, -, ⟨-, ht⟩ | ⟨-, ht⟩⟩
  · simp [ht]
  · cases role <;> simp [ht, Role.jobType]
  · simp [ht]
  · simp [ht]

theorem draftAsset_extends (h : s.Proper) (asset : Mrn) (policies frameworks : List Mrn) :
    (∃ kids tellers annex, (s.draftAsset asset (policies.filter s.bundle.isDeclared) []).graph.Extends assetRoot
      (s.draftAsset asset (policies.filter s.bundle.isDeclared) frameworks).graph kids tellers annex) ∧
    (s.draftAsset asset (policies.filter s.bundle.isDeclared) frameworks).magnitudes =
      (s.draftAsset asset (policies.filter s.bundle.isDeclared) []).magnitudes := by
  obtain ⟨log, hsurvey⟩ := asset_survey h asset policies frameworks
  obtain ⟨log', ha⟩ := exists_assigned_together h asset (policies.filter s.bundle.isDeclared)
  obtain ⟨events, hnil⟩ := draftAsset_nil (s := s) asset (policies.filter s.bundle.isDeclared)
  have hf : s.bundle.Furnished assetRoot (s.together asset (policies.filter s.bundle.isDeclared))
      (s.draftAsset asset (policies.filter s.bundle.isDeclared) frameworks) :=
    addFrameworks_furnished (ha.ground h) frameworks ha.bare
  rw [hnil]
  exact ⟨ha.extends h hf.graph hsurvey.grown.linked, hf.magnitudes⟩

end Setting

structure Resolution.Extends (res res' : Resolution) : Prop where
  root : res'.root = res.root
  execution : res'.execution = res.execution
  filters : res'.filters = res.filters
  magnitudes : res'.magnitudes = res.magnitudes
  consumers : res'.consumers = res.consumers
  jobs : ∃ kids tellers annex, res.graph.Extends res.root res'.graph kids tellers annex

namespace Bundle

variable {b : Bundle}

theorem resolve_frameworks (hb : b.Distinct) (asset : Mrn) (policies frameworks : List Mrn) (filters : PredicateSet)
    (now : Timestamp) :
    (∃ e, b.resolve ⟨.asset asset policies [], filters, now⟩ = .error e ∧
      b.resolve ⟨.asset asset policies frameworks, filters, now⟩ = .error e) ∨
    ∃ res res', b.resolve ⟨.asset asset policies [], filters, now⟩ = .ok res ∧
      b.resolve ⟨.asset asset policies frameworks, filters, now⟩ = .ok res' ∧ res.Extends res' := by
  have hs := hb.proper ⟨.asset asset policies [], filters, now⟩
  by_cases hc : (b.scope policies).covers filters = true
  · have hok : ∀ frameworks, b.resolve ⟨.asset asset policies frameworks, filters, now⟩ =
        .ok (b.finish ⟨.asset asset policies frameworks, filters, now⟩ (b.scope policies) assetRoot
          ((b.setting ⟨.asset asset policies [], filters, now⟩).draftAsset asset (policies.filter b.isDeclared) frameworks)) :=
      fun frameworks => resolve_eq_ok.mpr ⟨_, _, _, if_pos hc, rfl, rfl⟩
    obtain ⟨⟨kids, tellers, annex, hg⟩, hmagnitudes⟩ := Setting.draftAsset_extends hs asset policies frameworks
    exact .inr ⟨_, _, hok [], hok frameworks, {
      root := rfl
      execution := congrArg b.executionFrom (Graph.starts_congr hg.queryJobs).symm
      filters := rfl
      magnitudes := hmagnitudes
      consumers := (Graph.consumers_congr hg.queryJobs).symm
      jobs := ⟨kids, tellers, annex, hg.shareMrns⟩ }⟩
  · exact .inl ⟨.scopeMismatch (b.scope policies).declared.entries filters.entries,
      resolve_of_error (if_neg hc), resolve_of_error (if_neg hc)⟩

end Bundle

def auditedBundle : Bundle where
  policies := .ofList [{ mrn := "p", groups := [{ checks := [{ mrn := "x" }] }] }]
  frameworks := .ofList [{ mrn := "f", groups := [{ controls := ["c"] }] }]
  maps := [{ mrn := "m", framework := "f", policies := ["p"], controls := [{ mrn := "c", checks := [{ mrn := "x" }] }] }]
  queries := .ofList [{ mrn := "x", code := some { id := "cx" } }]

theorem auditedBundle_frameworks : auditedBundle.Distinct ∧ ∃ res res',
    auditedBundle.resolve ⟨.asset "a" ["p"] [], Keyed.empty, 1700000000⟩ = .ok res ∧
      auditedBundle.resolve ⟨.asset "a" ["p"] ["f"], Keyed.empty, 1700000000⟩ = .ok res' ∧ res.Extends res' ∧
        ∃ j ∈ res'.graph.jobs, j.type = .check ∧ j.parents = [.mrn "p", .mrn "c"] := by
  have hb : auditedBundle.Distinct := by decide +kernel
  have hs : (auditedBundle.scope ["p"]).covers Keyed.empty = true := by decide +kernel
  rcases Bundle.resolve_frameworks hb "a" ["p"] ["f"] Keyed.empty 1700000000 with ⟨e, h, -⟩ | ⟨res, res', h, h', he⟩
  · obtain ⟨res, hres⟩ := Bundle.exists_resolution (r := ⟨.asset "a" ["p"] [], Keyed.empty, 1700000000⟩) (if_pos hs)
    cases h.symm.trans hres
  · refine ⟨hb, res, res', h, h', he, ?_⟩
    obtain ⟨scope, root, d, -, hd, rfl⟩ := Bundle.resolve_eq_ok.mp h'
    obtain ⟨-, rfl⟩ := Prod.mk.inj (Except.ok.inj hd)
    -- the graph alone, which the scope does not enter
    change ∃ j ∈ (Graph.shareMrns _).jobs, _
    decide +kernel

end Compliance
